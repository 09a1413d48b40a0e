import LazyCast.Proofs.Ledger.Counting
import LazyCast.Proofs.Session.AllOrNothing
/-!
Every ledger is accounted for once, and so is every instruction. A ledger that was opened is absorbed
by another one, handed out to a cast, or reported as unused, by the end of the session at the latest;
an instruction that was appended is in a ledger that was handed out or in one that was reported.
-/
namespace LazyCast

def LazyValue.measurements (v : LazyValue) : Nat := if v.qubits.isEmpty then 0 else 1

def CastSource.lazy? : CastSource → Option LazyValue
  | .deferred v => some v
  | _ => none

theorem Group.length_measured (g : Group) (v : LazyValue) :
    (g.measured v).instructions.length = g.instructions.length + v.measurements := by
  unfold measured LazyValue.measurements
  split
  · rfl
  · simp [push]

namespace Session
variable {setup : SessionSetup} {s after : Session} {c : Call} {answer : Answer} {v : LazyValue}

def Answer.opens (answer : Answer) : Nat := answer.handedOut?.toList.length

def Answer.appends : Answer → Nat
  | position (.ok _) => 1
  | cast (.ok (.ticket _)) => 1
  | cast (.ok (.encoded _)) => 1
  | _ => 0

theorem Answer.figures_value (r : Except Fault Value) :
    (Answer.cast (r.map .value)).opens = 0 ∧ (Answer.cast (r.map .value)).appends = 0 := by
  cases r <;> exact ⟨rfl, rfl⟩

/-- The lazy value whose ledger a call triggers: the call casts it, and its ledger was open before and
    is not any more. -/
def Call.triggers? (c : Call) (s after : Session) : Option LazyValue :=
  c.castsLazily?.filter fun v => (s.state v).isOpen && !(after.state v).isOpen

def frozenLength (s : Session) (v : LazyValue) : Nat :=
  match s.frozenBy v with
  | .ok l => l.instructions.length
  | .error _ => 0

section Figures

def opened (s : Session) (c : Call) : Nat := (s.perform c).1.opens

def joined (s : Session) : Call → Nat
  | .interact _ values independent =>
    if independent then 0 else s.arena.joinsAmong (values.map LazyValue.ledger)
  | _ => 0

def triggered (s : Session) (c : Call) : Nat :=
  (c.triggers? s (s.perform c).2).elim 0 fun _ => 1

/-- Instructions that a call appends, the measurement of a cast among them. -/
def appended (s : Session) (c : Call) : Nat :=
  (s.perform c).1.appends + (c.triggers? s (s.perform c).2).elim 0 LazyValue.measurements

def handedOver (s : Session) (c : Call) : Nat :=
  (c.triggers? s (s.perform c).2).elim 0 s.frozenLength

def total (figure : Session → Call → Nat) (s : Session) : List Call → Nat
  | [] => 0
  | c :: rest => figure s c + total figure (s.perform c).2 rest

end Figures

/-- The ledgers that are open or were reported as unused. -/
def ledgers (s : Session) : Nat := s.arena.groups.length + s.diagnostics.length

def instructions (s : Session) : Nat := s.arena.groups.load + discardedIn s.diagnostics

structure Balanced (s : Session) (c : Call) (answer : Answer) (after : Session) : Prop where
  ledgers : s.ledgers + answer.opens =
    after.ledgers + s.joined c + (c.triggers? s after).elim 0 fun _ => 1
  instructions : s.instructions +
      (answer.appends + (c.triggers? s after).elim 0 LazyValue.measurements) =
    after.instructions + (c.triggers? s after).elim 0 s.frozenLength

theorem balanced_eager (eager : c.castsLazily? = none)
    (ledgers : s.ledgers + answer.opens = after.ledgers + s.joined c)
    (instructions : s.instructions + answer.appends = after.instructions) :
    Balanced s c answer after := by
  have none : c.triggers? s after = none := by
    rw [Call.triggers?, eager]
    rfl
  refine ⟨?_, ?_⟩
  · rw [none]
    exact ledgers
  · rw [none]
    exact instructions

theorem balanced_still (arena : after.arena = s.arena)
    (diagnostics : after.diagnostics = s.diagnostics) (unpooled : s.joined c = 0)
    (opens : answer.opens = 0) (appends : answer.appends = 0) : Balanced s c answer after := by
  have none : c.triggers? s after = none := by
    rw [Call.triggers?, Option.filter_eq_none_iff]
    intro v _
    rw [state, state, arena, Bool.and_not_self]
    exact Bool.false_ne_true
  have same : after.ledgers = s.ledgers := by rw [ledgers, ledgers, arena, diagnostics]
  have same' : after.instructions = s.instructions := by
    rw [instructions, instructions, arena, diagnostics]
  refine ⟨?_, ?_⟩
  · rw [none, opens, unpooled, same]
    rfl
  · rw [none, appends, same']
    rfl

section Effects
variable (calm : s.Calm)
include calm

theorem counts_allocate (type : TypeName) (kind : Kind) (width : Nat) :
    (s.allocate type kind width).2.ledgers = s.ledgers + 1 ∧
      (s.allocate type kind width).2.instructions = s.instructions := by
  obtain ⟨length, load⟩ := calm.tidy.counts_create s.allocator.nextValue
  refine ⟨?_, congrArg (· + discardedIn s.diagnostics) load⟩
  exact (congrArg (· + s.diagnostics.length) length).trans (Nat.add_right_comm _ _ _)

theorem counts_append {h : Handle} {g : Group} (found : s.arena.groups.open? h = some g)
    {i : Instruction} {b : Arena} (groups : b.groups = s.arena.groups.put (g.push i)) :
    (s.withArena b).ledgers = s.ledgers ∧ (s.withArena b).instructions = s.instructions + 1 := by
  obtain ⟨length, load⟩ := Groups.counts_push calm.tidy.apart (Arena.nodup_groups s.arena)
    (Groups.open?_spec found).1 i
  rw [← groups] at length load
  refine ⟨congrArg (· + s.diagnostics.length) length, ?_⟩
  exact (congrArg (· + discardedIn s.diagnostics) load).trans (Nat.add_right_comm _ _ _)

theorem balanced_consumed (unpooled : s.joined c = 0) (casts : c.castsLazily? = some v)
    (chain : CastChain) {g : Group} {b : Arena} (found : s.arena.groups.open? v.ledger = some g)
    (groups : b.groups = s.arena.groups.dissolve g) (tidy : b.Tidy) (opens : answer.opens = 0)
    (appends : answer.appends = 0) :
    Balanced s c answer ((s.withArena b).conclude v chain (g.measured v).frozen).2 := by
  have consumed := consumed_conclude calm found tidy groups chain (g.measured v).frozen
  have same := sameOffice_conclude (s.withArena b) v chain (g.measured v).frozen
  generalize ((s.withArena b).conclude v chain (g.measured v).frozen).2 = after at consumed same ⊢
  have arena : after.arena = b := same.arena
  obtain ⟨mem, inside, _⟩ := Groups.open?_spec found
  have gone : after.state v = .resolved := by
    refine consumed.resolved _ ?_
    rw [calm.tidy.sameLedger_of_open found, calm.tidy.apart.groupOf?_of_mem mem inside]
    exact decide_eq_true rfl
  have triggers : c.triggers? s after = some v := by
    rw [Call.triggers?, casts, Option.filter_some_pos]
    rw [consumed.opened, gone]
    rfl
  have frozen : s.frozenLength v = g.instructions.length + v.measurements := by
    rw [frozenLength, frozenBy_open calm.tidy found]
    exact g.length_measured v
  obtain ⟨fewer, lighter⟩ :=
    Groups.counts_dissolve calm.tidy.apart (Arena.nodup_groups s.arena) mem
  rw [← groups, ← arena] at fewer lighter
  refine ⟨?_, ?_⟩
  · rw [triggers, opens, unpooled, ledgers, ledgers, consumed.diagnostics, Option.elim_some]
    omega
  · rw [triggers, appends, instructions, instructions, consumed.diagnostics, Option.elim_some,
      Option.elim_some, frozen]
    omega

theorem balanced_castLazy (unpooled : s.joined c = 0) (casts : c.castsLazily? = some v)
    (chain : CastChain) (opens : answer.opens = 0) (appends : answer.appends = 0) :
    Balanced s c answer (s.castLazy v chain).2 := by
  rcases castLazy_cases calm v chain with refused | ⟨g, b, found, groups, tidy, same⟩
  · rw [refused]
    exact balanced_still rfl rfl unpooled opens appends
  · rw [same]
    exact balanced_consumed calm unpooled casts chain found groups tidy opens appends

theorem balanced_dispatch {source : CastSource} (unpooled : s.joined c = 0)
    (lazily : c.castsLazily? = source.lazy?) (plan : CastPlan)
    (opens : answer.opens = (Answer.cast (s.dispatch plan source).1).opens)
    (appends : answer.appends = (Answer.cast (s.dispatch plan source).1).appends) :
    Balanced s c answer (s.dispatch plan source).2 := by
  cases source with
  | strict v =>
    cases plan with
    | convert from_ target chain =>
      rw [dispatch] at opens appends ⊢
      split
      · rename_i typed
        rw [if_pos typed] at opens appends
        obtain ⟨none, none'⟩ := Answer.figures_value (chain.apply v)
        exact balanced_still rfl rfl unpooled (opens.trans none) (appends.trans none')
      · rename_i untyped
        rw [if_neg untyped] at opens appends
        exact balanced_still rfl rfl unpooled opens appends
    | encode from_ target kind width =>
      rw [dispatch] at opens appends ⊢
      rcases encodeValue_cases calm v target kind width with
        ⟨e, _, refused⟩ | ⟨literal, b, _, groups, _, made⟩
      · rw [refused] at opens appends ⊢
        exact balanced_still rfl rfl unpooled opens appends
      · have calm' := (grows_allocate calm target kind width).calm
        obtain ⟨more, same⟩ := counts_allocate calm target kind width
        obtain ⟨same', longer⟩ :=
          counts_append calm' (allocate_open calm target kind width) groups
        rw [made] at opens appends ⊢
        refine balanced_eager lazily ?_ ?_
        · rw [opens, unpooled, Nat.add_zero]
          exact (same'.trans more).symm
        · rw [appends]
          exact (longer.trans (congrArg (· + 1) same)).symm
  | deferred v =>
    cases plan with
    | encode from_ target kind width => exact balanced_still rfl rfl unpooled opens appends
    | convert from_ target chain =>
      rw [dispatch] at opens appends ⊢
      split
      · rename_i typed
        rw [if_pos typed] at opens appends
        obtain ⟨none, none'⟩ := Answer.figures_value (s.castLazy v chain).1
        exact balanced_castLazy calm unpooled lazily chain (opens.trans none) (appends.trans none')
      · rename_i untyped
        rw [if_neg untyped] at opens appends
        exact balanced_still rfl rfl unpooled opens appends
  | member root name =>
    cases plan with
    | encode from_ target kind width => exact balanced_still rfl rfl unpooled opens appends
    | convert from_ target chain =>
      rw [dispatch] at opens appends ⊢
      rcases deferMember_cases calm root name from_ target chain with
        ⟨e, refused⟩ | ⟨qubits, g, b, _, found, groups, _, deferred⟩
      · rw [refused] at opens appends ⊢
        exact balanced_still rfl rfl unpooled opens appends
      · obtain ⟨same, longer⟩ := counts_append calm found groups
        rw [deferred] at opens appends ⊢
        refine balanced_eager lazily ?_ ?_
        · rw [opens, unpooled]
          exact same.symm
        · rw [appends]
          exact longer.symm

theorem balanced_cast (source : CastSource) (target : TypeName) :
    Balanced s (.cast source target) (.cast ((s.cast source target).1.map .value))
      (s.cast source target).2 := by
  obtain ⟨opens, appends⟩ := Answer.figures_value (s.cast source target).1
  cases source with
  | strict v =>
    rw [cast_strict] at *
    exact balanced_still rfl rfl rfl opens appends
  | member root name => exact balanced_still rfl rfl rfl opens appends
  | deferred v =>
    rcases s.cast_deferred_cases v target with ⟨same, _⟩ | ⟨chain, _, same⟩
    · rw [same]
      exact balanced_still rfl rfl rfl opens appends
    · rw [same] at opens appends ⊢
      exact balanced_castLazy calm rfl rfl chain opens appends

theorem balanced_castMember (root : LazyValue) (name : String) (target : TypeName) :
    Balanced s (.castMember root name target) (.cast ((s.castMember root name target).1.map .ticket))
      (s.castMember root name target).2 := by
  unfold castMember
  split
  · exact balanced_still rfl rfl rfl rfl rfl
  · split
    · exact balanced_still rfl rfl rfl rfl rfl
    · rename_i plan _
      rw [dispatchAs_left, dispatchAs_answer]
      refine balanced_dispatch calm rfl rfl plan ?_ ?_
      all_goals
        cases plan with
        | encode from_ into kind width => rfl
        | convert from_ into chain =>
          rw [dispatch]
          rcases s.deferMember root name from_ into chain with ⟨e | ticket, left⟩ <;> rfl

theorem balanced_encode (v : Value) (target : TypeName) :
    Balanced s (.encode v target) (.cast ((s.encode v target).1.map .encoded))
      (s.encode v target).2 := by
  unfold encode
  split
  · exact balanced_still rfl rfl rfl rfl rfl
  · rename_i plan _
    rw [dispatchAs_left, dispatchAs_answer]
    refine balanced_dispatch calm rfl rfl plan ?_ ?_
    all_goals
      cases plan with
      | encode from_ into kind width =>
        rw [dispatch]
        rcases s.encodeValue v into kind width with ⟨e | q, left⟩ <;> rfl
      | convert from_ into chain =>
        rw [dispatch]
        split
        · cases chain.apply v <;> rfl
        · rfl

theorem balanced_interact (how : Interaction) (values : List LazyValue) (independent : Bool) :
    Balanced s (.interact how values independent) (.pooled (s.interact how values independent).1)
      (s.interact how values independent).2 := by
  obtain ⟨length, load⟩ :=
    calm.tidy.counts_interact how (values.map LazyValue.ledger) independent
  refine balanced_eager rfl ?_ ?_
  · exact (congrArg (· + s.diagnostics.length) length).trans (Nat.add_right_comm _ _ _)
  · exact congrArg (· + discardedIn s.diagnostics) load.symm

theorem balanced_dropValue (v : LazyValue) :
    Balanced s (.dropValue v) .dropped (s.dropValue v) := by
  obtain ⟨length, load⟩ := calm.tidy.counts_dropOwner v.ledger v.id
  have left : (s.dropValue v).arena = (s.arena.dropOwner v.ledger v.id).2 := rfl
  have reported : (s.dropValue v).diagnostics =
      s.diagnostics ++ (s.arena.dropOwner v.ledger v.id).1.toList := rfl
  refine balanced_eager rfl ?_ ?_
  · change s.ledgers = (s.dropValue v).ledgers
    rw [ledgers, ledgers, left, reported, length, List.length_append]
    omega
  · change s.instructions = (s.dropValue v).instructions
    rw [instructions, instructions, left, reported, load, discardedIn_append]
    omega

theorem finish_empty : s.finish.2.arena.groups = [] ∧ s.finish.1.length = s.ledgers ∧
    discardedIn s.finish.1 = s.instructions := by
  have m := Arena.sweep_matches calm.tidy
  obtain ⟨length, load⟩ := calm.allOpen.counts_sweep
  rw [← m.answer] at length load
  refine ⟨m.groups.trans calm.allOpen.sweep, ?_, ?_⟩
  · change (s.diagnostics ++ s.arena.sweep.1).length = _
    rw [List.length_append, length, Nat.add_comm]
    rfl
  · change discardedIn (s.diagnostics ++ s.arena.sweep.1) = _
    rw [discardedIn_append, load, Nat.add_comm]
    rfl

theorem balanced_finish : Balanced s .finish (.reports s.finish.1) s.finish.2 := by
  obtain ⟨none, length, load⟩ := finish_empty calm
  refine balanced_eager rfl ?_ ?_
  · change s.ledgers = s.finish.2.arena.groups.length + s.finish.1.length
    rw [none, length]
    exact (Nat.zero_add _).symm
  · change s.instructions = s.finish.2.arena.groups.load + discardedIn s.finish.1
    rw [none, load]
    exact (Nat.zero_add _).symm

end Effects

theorem balanced_perform (calm : s.Calm) (c : Call) :
    Balanced s c (s.perform c).1 (s.perform c).2 := by
  cases c with
  | defineComposite name members =>
    refine balanced_still ?_ ?_ rfl rfl rfl
    · change (s.defineComposite name members).2.arena = _
      unfold defineComposite
      split <;> rfl
    · change (s.defineComposite name members).2.diagnostics = _
      unfold defineComposite
      split <;> rfl
  | lazyValue type =>
    change Balanced s _ (.lazyValue (s.lazyValue type).1) (s.lazyValue type).2
    unfold lazyValue
    cases s.lazyType type with
    | error e => exact balanced_still rfl rfl rfl rfl rfl
    | ok d =>
      obtain ⟨more, same⟩ := counts_allocate calm type d.kind d.width
      exact balanced_eager rfl more.symm same.symm
  | apply v kind opcode operands =>
    change Balanced s _ (.position (s.applyWith v kind opcode operands).1)
      (s.applyWith v kind opcode operands).2
    unfold applyWith
    split
    · cases found : s.arena.groups.open? v.ledger with
      | none =>
        rw [append_spent calm.tidy found]
        exact balanced_still rfl rfl rfl rfl rfl
      | some g =>
        obtain ⟨b, appended, groups, _⟩ := append_open calm.tidy found ⟨0, opcode, operands, kind⟩
        obtain ⟨same, longer⟩ := counts_append calm found groups
        rw [appended]
        exact balanced_eager rfl same.symm longer.symm
    · exact balanced_still rfl rfl rfl rfl rfl
  | interact how values independent => exact balanced_interact calm how values independent
  | cast source target => exact balanced_cast calm source target
  | castMember root name target => exact balanced_castMember calm root name target
  | encode v target => exact balanced_encode calm v target
  | dispatch plan source => exact balanced_dispatch calm rfl (by cases source <;> rfl) plan rfl rfl
  | redeem t => exact balanced_still rfl rfl rfl rfl rfl
  | dropValue v => exact balanced_dropValue calm v
  | finish => exact balanced_finish calm

theorem balanced_run (calm : s.Calm) (calls : List Call) :
    s.ledgers + total opened s calls =
        (s.run calls).2.ledgers + total joined s calls + total triggered s calls ∧
      s.instructions + total appended s calls =
        (s.run calls).2.instructions + total handedOver s calls := by
  induction calls generalizing s with
  | nil => exact ⟨rfl, rfl⟩
  | cons c rest ih =>
    have step := balanced_perform calm c
    obtain ⟨ledgers, instructions⟩ := ih ((perform_effect calm c).calm calm)
    have opened := step.ledgers
    have appended := step.instructions
    refine ⟨?_, ?_⟩
    · simp only [total, run, Session.opened, triggered]
      omega
    · simp only [total, run, Session.appended, handedOver]
      omega

/-- At the end of a session every ledger that was opened has been absorbed by another, triggered by a
    cast, or reported as unused; and every instruction that was appended is in a ledger that was
    triggered or in one that was reported. -/
theorem ledgers_accounted {first : Session} (started : setup.start = .ok first)
    (calls : List Call) :
    total opened first calls = total joined first calls + total triggered first calls +
        (first.run calls).2.finish.1.length ∧
      total appended first calls = total handedOver first calls +
        discardedIn (first.run calls).2.finish.1 := by
  have empty : first.ledgers = 0 ∧ first.instructions = 0 := by
    obtain ⟨plan, o, _, _, rfl⟩ := start_eq_ok started
    exact ⟨rfl, rfl⟩
  obtain ⟨opened, appended⟩ := balanced_run (calm_start started) calls
  obtain ⟨_, reported, discarded⟩ := finish_empty (reached_run started calls).calm
  rw [empty.1] at opened
  rw [empty.2] at appended
  rw [reported, discarded]
  exact ⟨by omega, by omega⟩

def nthBit (n : Nat) : LazyValue := ⟨n, "@bool", .quantum, ⟨n, 0⟩, [n]⟩

def bitCalls : List Call :=
  [.lazyValue "@bool", .lazyValue "@bool", .lazyValue "@bool", .encode (.bool true) "@bool",
    .apply (nthBit 0) .quantum "teleport" [],
    .interact .call [nthBit 0, nthBit 1, nthBit 0] false,
    .cast (.deferred (nthBit 1)) "u64", .cast (.deferred (nthBit 0)) "u64",
    .apply (nthBit 2) .quantum "h" [.qubit 2], .dropValue (nthBit 2)]

/-- Four ledgers: one absorbed, one triggered and two reported. Four instructions: two in the ledger
    that was triggered, the measurement among them, though it does not run; one in each that was
    reported. -/
theorem bitCalls_accounted : ∃ first, (SessionSetup.ofRegistry .builtin).start = .ok first ∧
    total opened first bitCalls = 4 ∧ total joined first bitCalls = 1 ∧
    total triggered first bitCalls = 1 ∧ (first.run bitCalls).2.finish.1.length = 2 ∧
    total appended first bitCalls = 4 ∧ total handedOver first bitCalls = 2 ∧
    discardedIn (first.run bitCalls).2.finish.1 = 2 := by
  obtain ⟨first, started, opened, joined, triggered, appended, handedOver⟩ :
      ∃ first, (SessionSetup.ofRegistry .builtin).start = .ok first ∧
        total opened first bitCalls = 4 ∧ total joined first bitCalls = 1 ∧
        total triggered first bitCalls = 1 ∧ total appended first bitCalls = 4 ∧
        total handedOver first bitCalls = 2 := ⟨_, rfl, rfl, rfl, rfl, rfl, rfl⟩
  obtain ⟨ledgers, instructions⟩ := ledgers_accounted started bitCalls
  rw [opened, joined, triggered] at ledgers
  rw [appended, handedOver] at instructions
  exact ⟨first, started, opened, joined, triggered, by omega, appended, handedOver, by omega⟩

end Session
end LazyCast
