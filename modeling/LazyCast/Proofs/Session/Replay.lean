import LazyCast.Proofs.Reversible.Hosting
import LazyCast.Proofs.Session.Coverage
import LazyCast.Proofs.Session.Mirrored
import LazyCast.Proofs.Session.Slices
/-!
Programs on sessions. A program names its values by their places among those that it has at hand, so
it can be run again where values and qubits have other numbers. Other values that are made before it
only push its numbers up, and it measures the same.
-/
namespace LazyCast
variable {f : Qubit → Qubit} {γ : ValueId → ValueId}

namespace MeasuredSample

theorem project_rename (injective : Function.Injective f) (m : MeasuredSample)
    (targets : List Qubit) :
    (m.rename f).project (targets.map f) = (m.project targets).map (MeasuredSample.rename f) := by
  have places : positions? (m.rename f).qubits (targets.map f) = positions? m.qubits targets := by
    unfold positions? rename
    rw [List.mapM_map]
    congr 1
    funext q
    rw [Function.comp_apply, List.findIdx?_map]
    congr 1
    funext r
    exact decide_eq_decide.mpr injective.eq_iff
  have width : (m.rename f).qubits.length = m.qubits.length := List.length_map f
  have counts : (m.rename f).counts = m.counts := rfl
  unfold project
  rw [places]
  cases positions? m.qubits targets with
  | none => rfl
  | some places =>
    simp only [bind, Option.bind, width, counts]
    split <;> rfl

end MeasuredSample

theorem Sample.part?_rename (injective : Function.Injective f) (s : Sample) (targets : List Qubit) :
    (s.rename f).part? (targets.map f) = (s.part? targets).map (Sample.rename f) := by
  cases s with
  | deterministic v registers => rfl
  | measured m =>
    change ((m.rename f).project (targets.map f)).map _ = ((m.project targets).map _).map _
    rw [m.project_rename injective, Option.map_map, Option.map_map]
    rfl

namespace Session

inductive Named where
  | strict (v : Value)
  | deferred (n : Nat)
  | member (n : Nat) (name : String)

inductive Move where
  | defineComposite (name : TypeName) (members : List (String × TypeName))
  | lazyValue (type : TypeName)
  | apply (n : Nat) (kind : Kind) (opcode : String) (operands : List Operand)
  | interact (how : Interaction) (ns : List Nat) (independent : Bool)
  | cast (source : Named) (target : TypeName)
  | castMember (n : Nat) (name : String) (target : TypeName)
  | encode (v : Value) (target : TypeName)
  | dispatch (plan : CastPlan) (source : Named)
  | redeem (ticket : MemberTicket)
  | dropValue (n : Nat)
  | finish

def Named.source? (values : List LazyValue) : Named → Option CastSource
  | strict v => some (.strict v)
  | deferred n => (values[n]?).map .deferred
  | member n name => (values[n]?).map fun v => .member v name

namespace Move

/-- The call that a program makes with some values at hand; none if it names a value that it has
    not. -/
def call? (values : List LazyValue) : Move → Option Call
  | defineComposite name members => some (.defineComposite name members)
  | lazyValue type => some (.lazyValue type)
  | apply n kind opcode operands => (values[n]?).map fun v => .apply v kind opcode operands
  | interact how ns independent =>
    (ns.mapM fun n => values[n]?).map fun named => .interact how named independent
  | cast source target => (source.source? values).map fun source => .cast source target
  | castMember n name target => (values[n]?).map fun v => .castMember v name target
  | encode v target => some (.encode v target)
  | dispatch plan source => (source.source? values).map fun source => .dispatch plan source
  | redeem ticket => some (.redeem ticket)
  | dropValue n => (values[n]?).map .dropValue
  | finish => some .finish

def rename (f : Qubit → Qubit) : Move → Move
  | apply n kind opcode operands => apply n kind opcode (operands.map (Operand.rename f))
  | move => move

end Move

structure Client where
  session : Session
  /-- The values that were handed out to the program and are not spent, the newest first. -/
  values : List LazyValue

namespace Client

def make (c : Client) (move : Move) : Client :=
  match move.call? c.values with
  | none => c
  | some call =>
    let done := c.session.perform call
    ⟨done.2, (done.1.handedOut?.toList ++ c.values).filter fun v => !done.2.arena.isSpent v.ledger⟩

def play (c : Client) (moves : List Move) : Client := moves.foldl make c

/-- What a cast of a value would measure: the output of the run of its ledger, and the part of the
    sample on the value's own qubits. -/
def measured (c : Client) (n : Nat) : Option (Except Fault (RunOutput × Option Sample)) :=
  (c.values[n]?).map fun v => (c.session.frozenBy v).bind fun l =>
    (c.session.orchestrator.run l).1.map fun out => (out, out.sample.part? v.qubits)

/-- A measurement under other qubit numbers. -/
def renameMeasured (f : Qubit → Qubit) (r : RunOutput × Option Sample) : RunOutput × Option Sample :=
  (r.1.rename f, r.2.map (Sample.rename f))

structure Mirrored (f : Qubit → Qubit) (γ : ValueId → ValueId) (pairs : List Pair)
    (c c' : Client) : Prop where
  first : c.values = pairs.map Prod.fst
  second : c'.values = pairs.map Prod.snd
  opened : ∀ p ∈ pairs, c.session.arena.groups.open? p.1.ledger ≠ none
  sessions : Session.Mirrored f γ pairs c.session c'.session

end Client

section Resolving
variable (pairs : List Pair)

theorem rel_map {α β : Type} {R : α → α → Prop} {S : β → β → Prop} {φ φ' : α → β}
    {x y : Option α} (related : Option.Rel R x y) (step : ∀ a b, R a b → S (φ a) (φ' b)) :
    Option.Rel S (x.map φ) (y.map φ') := by
  cases related with
  | some related => exact .some (step _ _ related)
  | none => exact .none

theorem named_pair (n : Nat) :
    Option.Rel (fun v w => (v, w) ∈ pairs) (pairs.map Prod.fst)[n]? (pairs.map Prod.snd)[n]? := by
  rw [List.getElem?_map, List.getElem?_map]
  cases found : pairs[n]? with
  | none => exact .none
  | some p => exact .some (List.mem_of_getElem? found)

theorem named_pairs (ns : List Nat) :
    Option.Rel (fun vs ws => ∃ named : List Pair, (∀ p ∈ named, p ∈ pairs) ∧
      named.map Prod.fst = vs ∧ named.map Prod.snd = ws)
      (ns.mapM fun n => (pairs.map Prod.fst)[n]?) (ns.mapM fun n => (pairs.map Prod.snd)[n]?) := by
  induction ns with
  | nil => exact .some ⟨[], (fun _ no => by cases no), rfl, rfl⟩
  | cons n ns ih =>
    rw [List.mapM_cons, List.mapM_cons]
    have place := named_pair pairs n
    generalize (pairs.map Prod.fst)[n]? = first at place ⊢
    generalize (pairs.map Prod.snd)[n]? = second at place ⊢
    cases place with
    | none => exact .none
    | @some v w mem =>
      have consed : ∀ (x : Option (List LazyValue)) (v : LazyValue),
          (x.bind fun vs => some (v :: vs)) = x.map (v :: ·) := fun _ _ => Option.map_eq_bind.symm
      simp only [Option.bind_eq_bind, Option.bind_some, Option.pure_def, consed]
      refine rel_map ih ?_
      rintro _ _ ⟨named, within, rfl, rfl⟩
      exact ⟨(v, w) :: named, List.forall_mem_cons.mpr ⟨mem, within⟩, rfl, rfl⟩

theorem named_source (source : Named) :
    Option.Rel (SourcePair pairs) (source.source? (pairs.map Prod.fst))
      (source.source? (pairs.map Prod.snd)) := by
  cases source with
  | strict v => exact .some (.strict v)
  | deferred n => exact rel_map (named_pair pairs n) fun _ _ mem => .deferred mem
  | member n name => exact rel_map (named_pair pairs n) fun _ _ mem => .member mem name

theorem call?_pair (f : Qubit → Qubit) (move : Move) :
    Option.Rel (CallPair f pairs) (move.call? (pairs.map Prod.fst))
      ((move.rename f).call? (pairs.map Prod.snd)) := by
  cases move with
  | defineComposite name members => exact .some (.defineComposite name members)
  | lazyValue type => exact .some (.lazyValue type)
  | apply n kind opcode operands =>
    exact rel_map (named_pair pairs n) fun _ _ mem => .apply mem kind opcode operands
  | interact how ns independent =>
    refine rel_map (named_pairs pairs ns) ?_
    rintro _ _ ⟨named, within, rfl, rfl⟩
    exact .interact how within independent
  | cast source target =>
    exact rel_map (named_source pairs source) fun _ _ related => .cast related target
  | castMember n name target =>
    exact rel_map (named_pair pairs n) fun _ _ mem => .castMember mem name target
  | encode v target => exact .some (.encode v target)
  | dispatch plan source =>
    exact rel_map (named_source pairs source) fun _ _ related => .dispatch plan related
  | redeem ticket => exact .some (.redeem ticket)
  | dropValue n => exact rel_map (named_pair pairs n) fun _ _ mem => .dropValue mem
  | finish => exact .some .finish

end Resolving

namespace Client
variable {c c' : Client} {pairs : List Pair}

theorem Mirrored.make (m : Mirrored f γ pairs c c') (rising : StrictMono γ) (move : Move) :
    ∃ pairs', Mirrored f γ pairs' (c.make move) (c'.make (move.rename f)) := by
  have moved := call?_pair pairs f move
  unfold Client.make
  rw [m.first, m.second]
  generalize move.call? (pairs.map Prod.fst) = taken at moved ⊢
  generalize (move.rename f).call? (pairs.map Prod.snd) = taken' at moved ⊢
  cases moved with
  | none => exact ⟨pairs, m⟩
  | @some call call' related =>
    obtain ⟨more, handed, handed', left⟩ := m.sessions.perform m.opened rising related
    dsimp only
    rw [handed, handed']
    have all : (more.map Prod.fst).toList ++ pairs.map Prod.fst =
        (more.toList ++ pairs).map Prod.fst := by
      cases more <;> rfl
    have all' : (more.map Prod.snd).toList ++ pairs.map Prod.snd =
        (more.toList ++ pairs).map Prod.snd := by
      cases more <;> rfl
    let unspent := fun p : Pair => !(c.session.perform call).2.arena.isSpent p.1.ledger
    refine ⟨(more.toList ++ pairs).filter unspent, ?_, ?_, ?_,
      left.mono fun p mem => (List.mem_filter.mp mem).1⟩
    · rw [all, List.filter_map]
      rfl
    · rw [all', List.filter_map]
      apply congrArg (List.map Prod.snd)
      apply List.filter_congr
      intro p mem
      exact congrArg not (left.isSpent mem)
    · intro p mem
      have isOpen := (List.mem_filter.mp mem).2
      change (!(c.session.perform call).2.arena.isSpent p.1.ledger) = true at isOpen
      rw [left.calm.tidy.isSpent_eq] at isOpen
      intro spent
      change (c.session.perform call).2.arena.groups.open? p.1.ledger = none at spent
      rw [spent] at isOpen
      cases isOpen

theorem Mirrored.play (m : Mirrored f γ pairs c c') (rising : StrictMono γ) (moves : List Move) :
    ∃ pairs', Mirrored f γ pairs' (c.play moves) (c'.play (moves.map (Move.rename f))) := by
  induction moves generalizing c c' pairs with
  | nil => exact ⟨pairs, m⟩
  | cons move rest ih =>
    obtain ⟨pairs', next⟩ := m.make rising move
    exact ih next

theorem Mirrored.measured (m : Mirrored f γ pairs c c') (injective : Function.Injective f)
    (n : Nat) : c'.measured n = (c.measured n).map (renamed f (renameMeasured f)) := by
  have place := named_pair pairs n
  unfold Client.measured
  rw [m.first, m.second]
  generalize (pairs.map Prod.fst)[n]? = first at place ⊢
  generalize (pairs.map Prod.snd)[n]? = second at place ⊢
  cases place with
  | none => rfl
  | @some v w mem =>
    rcases m.sessions.cases mem with ⟨spent, _⟩ | ⟨g, g', opened, opened', mirrors⟩
    · exact absurd spent (m.opened _ mem)
    · have values := m.sessions.values _ mem
      have ran := (m.sessions.office.run (mirrors.measured values).frozen).answer
      dsimp only [Option.map_some] at opened opened' ran ⊢
      rw [frozenBy_open m.sessions.calm.tidy opened, frozenBy_open m.sessions.calm'.tidy opened']
      dsimp only [Except.bind]
      rw [ran, values.qubits]
      cases (c.session.orchestrator.run (g.measured v).frozen).1 with
      | error e => rfl
      | ok out =>
        have part : (out.rename f).sample.part? (v.qubits.map f) =
            (out.sample.part? v.qubits).map (Sample.rename f) :=
          out.sample.part?_rename injective v.qubits
        exact congrArg (fun part => some (Except.ok (out.rename f, part))) part

end Client

section Making
variable {setup : SessionSetup} {past : History} {s after last : Session} {c : Call}

structure Made (s after : Session) : Prop where
  types : after.types = s.types
  casts : after.casts = s.casts
  nextTicket : after.nextTicket = s.nextTicket
  orchestrator : after.orchestrator = s.orchestrator
  nextQubit : s.allocator.nextQubit ≤ after.allocator.nextQubit
  nextValue : s.allocator.nextValue ≤ after.allocator.nextValue

theorem Made.refl (s : Session) : Made s s := ⟨rfl, rfl, rfl, rfl, Nat.le_refl _, Nat.le_refl _⟩

theorem Made.trans (first : Made s after) (second : Made after last) : Made s last :=
  ⟨second.types.trans first.types, second.casts.trans first.casts,
    second.nextTicket.trans first.nextTicket, second.orchestrator.trans first.orchestrator,
    first.nextQubit.trans second.nextQubit, first.nextValue.trans second.nextValue⟩

theorem made_allocate (s : Session) (type : TypeName) (kind : Kind) (width : Nat) :
    Made s (s.allocate type kind width).2 :=
  ⟨rfl, rfl, rfl, rfl, Nat.le_add_right _ _, Nat.le_add_right _ _⟩

theorem made_perform (s : Session) (makes : c.makes = true) : Made s (s.perform c).2 := by
  cases c with
  | lazyValue type =>
    change Made s (s.lazyValue type).2
    unfold lazyValue
    cases s.lazyType type with
    | ok d => exact made_allocate s type d.kind d.width
    | error e => exact .refl s
  | encode v target =>
    change Made s (s.encode v target).2
    unfold encode
    cases s.compileCast v.typeName target with
    | error e => exact .refl s
    | ok plan =>
      dsimp only
      rw [dispatchAs_left]
      cases plan with
      | encode from_ into kind width =>
        change Made s (s.encodeValue v into kind width).2
        unfold encodeValue
        cases encodable v into width with
        | error e => exact .refl s
        | ok literal =>
          obtain ⟨types, casts, nextTicket, orchestrator, nextQubit, nextValue⟩ :=
            made_allocate s into kind width
          exact ⟨types, casts, nextTicket, orchestrator, nextQubit, nextValue⟩
      | convert from_ into chain =>
        unfold dispatch
        dsimp only
        split <;> exact .refl s
  | _ => cases makes

theorem made_run (s : Session) {others : List Call} (make : ∀ c ∈ others, c.makes = true) :
    Made s (s.run others).2 := by
  induction others generalizing s with
  | nil => exact .refl s
  | cons c rest ih =>
    obtain ⟨makes, make⟩ := List.forall_mem_cons.mp make
    exact (made_perform s makes).trans (ih (s.perform c).2 make)

def shiftFrom (start up : Nat) (n : Nat) : Nat := if n < start then n else n + up

theorem strictMono_shiftFrom (start up : Nat) : StrictMono (shiftFrom start up) := by
  intro m n less
  unfold shiftFrom
  split <;> split <;> omega

theorem mirrored_made (modules : setup.modules = .builtin) (reached : Reached setup past s)
    {others : List Call} (make : ∀ c ∈ others, c.makes = true) :
    Mirrored
      (shiftFrom s.allocator.nextQubit
        ((s.run others).2.allocator.nextQubit - s.allocator.nextQubit))
      (shiftFrom s.allocator.nextValue
        ((s.run others).2.allocator.nextValue - s.allocator.nextValue))
      [] s (s.run others).2 := by
  have made := made_run s make
  obtain ⟨plan, _, reachable⟩ := reached.reachable modules
  have office := reachable.renamed (strictMono_shiftFrom s.allocator.nextQubit
    ((s.run others).2.allocator.nextQubit - s.allocator.nextQubit))
  refine ⟨reached.calm, (reached.run others).calm, made.types, made.casts, made.nextTicket,
    made.orchestrator ▸ office, fun n => ?_, fun n => ?_, fun p no => (by cases no),
    fun p no => (by cases no), fun p no => (by cases no)⟩
  · rw [shiftFrom, if_neg (Nat.not_lt.mpr (Nat.le_add_right _ n)), Nat.add_right_comm,
      Nat.add_sub_of_le made.nextQubit]
  · rw [shiftFrom, if_neg (Nat.not_lt.mpr (Nat.le_add_right _ n)), Nat.add_right_comm,
      Nat.add_sub_of_le made.nextValue]

end Making

/-- Results do not depend on qubit numbers. The simulator gives a program whose qubits are renamed in
    order the fault that it gives the program, or its sample with the qubits renamed: the same counts,
    shots, seed and text. So it does not matter to a program on a session what other values were made
    before: with its qubits shifted past theirs, each value that it has at hand is measured with the
    same counts. -/
theorem numbers_immaterial :
    (∀ (sim : Simulator) (run : Nat) (p : Program) (f : Qubit → Qubit),
      StrictMonoOn f (Circuit.used p.ops) →
        sim.execute run (p.rename f) = (sim.execute run p).map (MeasuredSample.rename f)) ∧
    ∀ setup past s, setup.modules = .builtin → Reached setup past s →
      ∀ others : List Call, (∀ c ∈ others, c.makes = true) → ∀ moves n,
        let t := (s.run others).2
        let f := shiftFrom s.allocator.nextQubit (t.allocator.nextQubit - s.allocator.nextQubit)
        ((Client.mk t []).play (moves.map (Move.rename f))).measured n =
          (((Client.mk s []).play moves).measured n).map (renamed f (Client.renameMeasured f)) := by
  constructor
  · intro sim run p f rising
    exact sim.execute_rename run p rising
  · intro setup past s modules reached others make moves n
    have start : Client.Mirrored
        (shiftFrom s.allocator.nextQubit
          ((s.run others).2.allocator.nextQubit - s.allocator.nextQubit))
        (shiftFrom s.allocator.nextValue
          ((s.run others).2.allocator.nextValue - s.allocator.nextValue))
        [] ⟨s, []⟩ ⟨(s.run others).2, []⟩ :=
      ⟨rfl, rfl, (fun p no => by cases no), mirrored_made modules reached make⟩
    obtain ⟨pairs, played⟩ := start.play (strictMono_shiftFrom _ _) moves
    exact played.measured (strictMono_shiftFrom _ _).injective n

def flipMoves : List Move := [.lazyValue "@bool", .apply 0 .quantum "x" [.qubit 0]]

def twoBits : List Call := [.lazyValue "@bool", .lazyValue "@bool"]

/-- A flip of one qubit, and a bit that is flipped after two others were made. -/
theorem flip_renumbered :
    (∀ sim : Simulator, sim.execute 0 ⟨.quantum, [.plain 0 "x" [.qubit 2]]⟩ =
      (sim.execute 0 ⟨.quantum, [.plain 0 "x" [.qubit 0]]⟩).map
        (MeasuredSample.rename (shiftFrom 0 2))) ∧
    ∃ first, (SessionSetup.ofRegistry .builtin).start = .ok first ∧
      (first.run twoBits).2.allocator = ⟨2, 2⟩ ∧
      ((Client.mk first []).play flipMoves).values = [⟨0, "@bool", .quantum, ⟨0, 0⟩, [0]⟩] ∧
      ((Client.mk (first.run twoBits).2 []).play
        [.lazyValue "@bool", .apply 0 .quantum "x" [.qubit 2]]).measured 0 =
          (((Client.mk first []).play flipMoves).measured 0).map
            (renamed (shiftFrom 0 2) (Client.renameMeasured (shiftFrom 0 2))) := by
  obtain ⟨simulated, sessions⟩ := numbers_immaterial
  constructor
  · intro sim
    exact simulated sim 0 ⟨.quantum, [.plain 0 "x" [.qubit 0]]⟩ (shiftFrom 0 2)
      ((strictMono_shiftFrom 0 2).strictMonoOn _)
  · obtain ⟨first, started⟩ : ∃ first, (SessionSetup.ofRegistry .builtin).start = .ok first :=
      ⟨_, rfl⟩
    have reached := reached_run started []
    cases started
    have make : ∀ c ∈ twoBits, c.makes = true := by decide
    exact ⟨_, rfl, by decide, by decide, sessions _ _ _ rfl reached twoBits make flipMoves 0⟩

end Session
end LazyCast
