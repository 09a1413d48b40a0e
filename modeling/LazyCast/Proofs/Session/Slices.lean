import LazyCast.Proofs.Composites
import LazyCast.Proofs.Reversible.Hosting
import LazyCast.Proofs.Session.CastFaults
/-!
Qubits of lazy values and of their members. Each value takes the qubits that follow those of all
values before it, so no two values share one. The members of a composite value cut its qubits into
pieces, for as long as its type keeps the definition that it was made from.
-/
namespace LazyCast

def Fault.isOutside : Fault → Bool
  | .malformed _ (.memberOutside _) => true
  | _ => false

namespace Session
variable {setup : SessionSetup} {past : History} {s after : Session} {c : Call} {v : LazyValue}
variable {name : TypeName} {d : TypeDef}

/-- The call made a lazy value from the definition that its type had by then. -/
def Call.makes : Call → Bool
  | .lazyValue _ => true
  | .encode _ _ => true
  | _ => false

def History.Defines (name : TypeName) : Call × Answer → Prop
  | (.defineComposite other _, .done (.ok ())) => other = name
  | _ => False

section Supplies

/-- Types are as they were, and only a value that is handed out takes qubits: the next ones. -/
structure Supplies (s : Session) (handed : Option LazyValue) (after : Session) : Prop where
  types : after.types = s.types
  fresh : ∀ v, handed = some v → v.qubits = List.range' s.allocator.nextQubit v.width
  next : after.allocator.nextQubit = s.allocator.nextQubit + handed.elim 0 LazyValue.width

theorem Supplies.still (types : after.types = s.types) (allocator : after.allocator = s.allocator) :
    Supplies s none after := by
  constructor
  · exact types
  · intro v no
    cases no
  · rw [allocator]
    rfl

theorem supplies_allocate (type : TypeName) (kind : Kind) (width : Nat) :
    Supplies s (some (s.allocate type kind width).1) (s.allocate type kind width).2 := by
  have long : (s.allocate type kind width).1.width = width := List.length_range'
  constructor
  · rfl
  · intro v same
    cases same
    rw [long]
    rfl
  · rw [Option.elim_some, long]
    rfl

theorem supplies_lazyValue (type : TypeName) :
    Supplies s (Answer.lazyValue (s.lazyValue type).1).handedOut? (s.lazyValue type).2 := by
  unfold lazyValue
  cases s.lazyType type with
  | ok d => exact supplies_allocate type d.kind d.width
  | error e => exact Supplies.still rfl rfl

theorem supplies_encodeValue (calm : s.Calm) (x : Value) (target : TypeName) (kind : Kind)
    (width : Nat) :
    Supplies s (Answer.cast ((s.encodeValue x target kind width).1.map .encoded)).handedOut?
      (s.encodeValue x target kind width).2 := by
  rcases encodeValue_cases calm x target kind width with
    ⟨e, _, refused⟩ | ⟨literal, b, _, _, _, made⟩
  · rw [refused]
    exact Supplies.still rfl rfl
  · rw [made]
    have took := supplies_allocate (s := s) target kind width
    exact ⟨took.types, took.fresh, took.next⟩

theorem still_castLazy (calm : s.Calm) (v : LazyValue) (chain : CastChain) :
    Supplies s none (s.castLazy v chain).2 := by
  rcases castLazy_cases calm v chain with refused | ⟨g, b, _, _, _, same⟩
  · rw [refused]
    exact Supplies.still rfl rfl
  · have office := sameOffice_conclude (s.withArena b) v chain (g.measured v).frozen
    rw [same]
    exact Supplies.still office.types office.allocator

theorem still_deferMember (calm : s.Calm) (root : LazyValue) (member : String)
    (source target : TypeName) (chain : CastChain) :
    Supplies s none (s.deferMember root member source target chain).2 := by
  rcases deferMember_cases calm root member source target chain with
    ⟨e, refused⟩ | ⟨qubits, g, b, _, _, _, _, same⟩
  · rw [refused]
    exact Supplies.still rfl rfl
  · rw [same]
    exact Supplies.still rfl rfl

theorem still_convert (calm : s.Calm) (from_ target : TypeName) (chain : CastChain)
    (source : CastSource) :
    (Answer.cast (s.dispatch (.convert from_ target chain) source).1).handedOut? = none ∧
      Supplies s none (s.dispatch (.convert from_ target chain) source).2 := by
  have value : ∀ r : Except Fault Value, (Answer.cast (r.map .value)).handedOut? = none := by
    intro r
    cases r <;> rfl
  cases source with
  | strict x =>
    rw [dispatch]
    split
    · exact ⟨value _, Supplies.still rfl rfl⟩
    · exact ⟨rfl, Supplies.still rfl rfl⟩
  | deferred v =>
    rw [dispatch]
    split
    · exact ⟨value _, still_castLazy calm v chain⟩
    · exact ⟨rfl, Supplies.still rfl rfl⟩
  | member root member =>
    rw [dispatch]
    refine ⟨?_, still_deferMember calm root member from_ target chain⟩
    change (Answer.cast ((s.deferMember root member from_ target chain).1.map .ticket)).handedOut? =
      none
    cases (s.deferMember root member from_ target chain).1 <;> rfl

theorem supplies_dispatch (calm : s.Calm) (plan : CastPlan) (source : CastSource) :
    Supplies s (Answer.cast (s.dispatch plan source).1).handedOut? (s.dispatch plan source).2 := by
  cases plan with
  | convert from_ target chain =>
    obtain ⟨none, still⟩ := still_convert calm from_ target chain source
    rw [none]
    exact still
  | encode from_ target kind width =>
    cases source with
    | strict x => exact supplies_encodeValue calm x target kind width
    | deferred v => exact Supplies.still rfl rfl
    | member root member => exact Supplies.still rfl rfl

theorem still_cast (calm : s.Calm) (source : CastSource) (target : TypeName) :
    Supplies s none (s.cast source target).2 := by
  unfold cast
  dsimp only
  split
  · exact Supplies.still rfl rfl
  · split
    · exact Supplies.still rfl rfl
    · rename_i plan _
      cases plan with
      | encode from_ into kind width => exact Supplies.still rfl rfl
      | convert from_ into chain =>
        simp only [CastPlan.isEncode, Bool.false_eq_true, if_false]
        rw [dispatchAs_left]
        exact (still_convert calm from_ into chain source).2

theorem still_castMember (calm : s.Calm) (root : LazyValue) (member : String)
    (target : TypeName) : Supplies s none (s.castMember root member target).2 := by
  unfold castMember
  split
  · exact Supplies.still rfl rfl
  · split
    · exact Supplies.still rfl rfl
    · rename_i plan _
      rw [dispatchAs_left]
      cases plan with
      | encode from_ into kind width => exact Supplies.still rfl rfl
      | convert from_ into chain => exact (still_convert calm from_ into chain _).2

theorem supplies_encode (calm : s.Calm) (x : Value) (target : TypeName) :
    Supplies s (Answer.cast ((s.encode x target).1.map .encoded)).handedOut?
      (s.encode x target).2 := by
  unfold encode
  split
  · exact Supplies.still rfl rfl
  · rename_i plan _
    have kept : (Answer.cast ((s.dispatchAs plan (.strict x) (.unsupportedCast x.typeName target)
        CastOutcome.encoded?).1.map .encoded)).handedOut? =
          (Answer.cast (s.dispatch plan (.strict x)).1).handedOut? := by
      rw [dispatchAs_answer]
      rcases (s.dispatch plan (.strict x)).1 with e | outcome
      · rfl
      · cases outcome <;> rfl
    rw [kept, dispatchAs_left]
    exact supplies_dispatch calm plan (.strict x)

theorem supplies_perform (calm : s.Calm) (c : Call)
    (other : ∀ name members, c ≠ .defineComposite name members) :
    Supplies s (s.perform c).1.handedOut? (s.perform c).2 := by
  cases c with
  | defineComposite name members => exact absurd rfl (other name members)
  | lazyValue type => exact supplies_lazyValue type
  | apply v kind opcode operands =>
    change Supplies s none (s.applyWith v kind opcode operands).2
    unfold applyWith
    split <;> exact Supplies.still rfl rfl
  | interact how values independent => exact Supplies.still rfl rfl
  | cast source target =>
    have none : (Answer.cast ((s.cast source target).1.map .value)).handedOut? = none := by
      cases (s.cast source target).1 <;> rfl
    simp only [perform, none]
    exact still_cast calm source target
  | castMember root member target =>
    have none : (Answer.cast ((s.castMember root member target).1.map .ticket)).handedOut? =
        none := by
      cases (s.castMember root member target).1 <;> rfl
    simp only [perform, none]
    exact still_castMember calm root member target
  | encode x target => exact supplies_encode calm x target
  | dispatch plan source => exact supplies_dispatch calm plan source
  | redeem t => exact Supplies.still rfl rfl
  | dropValue v => exact Supplies.still rfl rfl
  | finish => exact Supplies.still rfl rfl

end Supplies
section Ranges

theorem takes_perform (calm : s.Calm) (c : Call) :
    (∀ v, (s.perform c).1.handedOut? = some v →
        v.qubits = List.range' s.allocator.nextQubit v.width) ∧
      (s.perform c).2.allocator.nextQubit =
        s.allocator.nextQubit + (s.perform c).1.handedOut?.elim 0 LazyValue.width := by
  by_cases other : ∀ name members, c ≠ .defineComposite name members
  · have supplies := supplies_perform calm c other
    exact ⟨supplies.fresh, supplies.next⟩
  · simp only [ne_eq, not_forall, not_not] at other
    obtain ⟨name, members, rfl⟩ := other
    constructor
    · intro v no
      cases no
    · change (s.defineComposite name members).2.allocator.nextQubit = s.allocator.nextQubit
      unfold defineComposite
      split <;> rfl

theorem values_concat (past : History) (e : Call × Answer) :
    History.values (past ++ [e]) = past.values ++ e.2.handedOut?.toList := by
  rw [History.values, List.filterMap_append]
  cases made : e.2.handedOut? <;> simp [History.values, made]

theorem Reached.ranges (reached : Reached setup past s) :
    past.values.flatMap LazyValue.qubits = List.range s.allocator.nextQubit ∧
      ∀ v ∈ past.values, ∃ start, v.qubits = List.range' start v.width := by
  refine reached.induct (motive := fun past s =>
    (History.values past).flatMap LazyValue.qubits = List.range s.allocator.nextQubit ∧
      ∀ v ∈ History.values past, ∃ start, v.qubits = List.range' start v.width) ?_ ?_
  · intro first started
    obtain ⟨plan, o, _, _, rfl⟩ := start_eq_ok started
    refine ⟨rfl, ?_⟩
    intro v no
    cases no
  · intro past s c reached ih
    obtain ⟨covered, consecutive⟩ := ih
    obtain ⟨fresh, next⟩ := takes_perform reached.calm c
    rw [values_concat, next]
    cases made : (s.perform c).1.handedOut? with
    | none =>
      simp only [Option.toList_none, List.append_nil, Option.elim_none, Nat.add_zero]
      exact ⟨covered, consecutive⟩
    | some v =>
      have qubits := fresh v made
      simp only [Option.toList_some, Option.elim_some]
      constructor
      · have longer := List.range'_append_1 (s := 0) (m := s.allocator.nextQubit) (n := v.width)
        rw [Nat.zero_add] at longer
        rw [List.flatMap_append, covered, List.flatMap_singleton, qubits, List.range_eq_range',
          longer, List.range_eq_range']
      · intro w mem
        rcases List.mem_append.mp mem with old | new
        · exact consecutive w old
        · rw [List.mem_singleton.mp new]
          exact ⟨_, qubits⟩

theorem Reached.disjoint (reached : Reached setup past s) :
    past.values.Pairwise fun v w => v.qubits.Disjoint w.qubits := by
  have distinct : (past.values.flatMap LazyValue.qubits).Nodup := by
    rw [reached.ranges.1]
    exact List.nodup_range
  exact (List.nodup_flatMap.mp distinct).2

end Ranges

section Definitions

theorem map_run (s : Session) (calls : List Call) : (s.run calls).1.map Prod.fst = calls := by
  induction calls generalizing s with
  | nil => rfl
  | cons c rest ih => exact congrArg (c :: ·) (ih (s.perform c).2)

theorem Reached.cut {before rest : History} (reached : Reached setup (before ++ rest) s) :
    ∃ t, Reached setup before t ∧ t.run (rest.map Prod.fst) = (rest, s) := by
  obtain ⟨first, calls, started, ran⟩ := reached
  have made := map_run first calls
  rw [ran, List.map_append] at made
  rw [← made, run_append, Prod.mk.injEq] at ran
  obtain ⟨histories, left⟩ := ran
  have long : (first.run (before.map Prod.fst)).1.length = before.length := by
    have names := congrArg List.length (map_run first (before.map Prod.fst))
    rwa [List.length_map, List.length_map] at names
  obtain ⟨same, same'⟩ := List.append_inj histories long
  refine ⟨(first.run (before.map Prod.fst)).2, ?_, ?_⟩
  · have reached := reached_run started (before.map Prod.fst)
    rwa [same] at reached
  · exact Prod.ext same' left

theorem find?_perform (calm : s.Calm) (name : TypeName) (c : Call)
    (kept : ¬ History.Defines name (c, (s.perform c).1)) :
    (s.perform c).2.types.find? name = s.types.find? name := by
  by_cases other : ∀ name members, c ≠ .defineComposite name members
  · rw [(supplies_perform calm c other).types]
  · simp only [ne_eq, not_forall, not_not] at other
    obtain ⟨defined, members, rfl⟩ := other
    simp only [perform, defineComposite] at kept ⊢
    cases made : s.types.defineComposite defined members with
    | error e => rfl
    | ok both =>
      obtain ⟨d, types⟩ := both
      rw [made] at kept
      obtain ⟨named, table, _⟩ := TypeTable.defineComposite_eq_ok made
      rw [table, TypeTable.define, named]
      exact Table.find?_insert_of_ne _ _ fun same => kept same.symm

theorem find?_run (reached : Reached setup past s) (name : TypeName) (calls : List Call)
    (kept : ∀ e ∈ (s.run calls).1, ¬ History.Defines name e) :
    (s.run calls).2.types.find? name = s.types.find? name := by
  induction calls generalizing past s with
  | nil => rfl
  | cons c rest ih =>
    have step := find?_perform reached.calm name c (kept _ List.mem_cons_self)
    rw [← step]
    exact ih (reached.next c) fun e mem => kept e (List.mem_cons_of_mem _ mem)

theorem Reached.defined {before rest : History} {members : List (String × TypeName)}
    (reached : Reached setup (before ++ (.defineComposite name members, .done (.ok ())) :: rest) s)
    (kept : ∀ e ∈ rest, ¬ History.Defines name e) :
    ∃ t types d, Reached setup before t ∧ members.map (fun m => t.types.find? m.2) = types.map some ∧
      TypeTable.Composes members types d ∧ s.types.find? name = some d := by
  obtain ⟨t, earlier, ran⟩ := reached.cut
  rw [List.map_cons] at ran
  have answered : (t.perform (.defineComposite name members)).1 = .done (.ok ()) := by
    have first := congrArg (fun r => r.1.head?) ran
    exact (Prod.ext_iff.mp (Option.some.inj first)).2
  have later : ((t.perform (.defineComposite name members)).2.run (rest.map Prod.fst)) =
      (rest, s) := by
    have tail := congrArg (fun r => r.1.tail) ran
    have left := congrArg Prod.snd ran
    exact Prod.ext tail left
  have found := find?_run (earlier.next (.defineComposite name members)) name
    (rest.map Prod.fst)
  rw [later] at found
  simp only [perform, defineComposite] at answered found
  cases made : t.types.defineComposite name members with
  | error e =>
    rw [made] at answered
    cases answered
  | ok both =>
    obtain ⟨d, table⟩ := both
    obtain ⟨named, inserted, types, known, composes⟩ := TypeTable.defineComposite_eq_ok made
    refine ⟨t, types, d, earlier, known, composes, ?_⟩
    rw [found kept, made]
    dsimp only
    rw [inserted, TypeTable.define, named, Table.find?_insert_self]

/-- The call of an entry was made on a session that was reached, where the name meant what it means
    at the end, unless it is defined again. -/
theorem Reached.entry {before rest : History} {e : Call × Answer}
    (reached : Reached setup (before ++ e :: rest) s)
    (kept : ∀ x ∈ e :: rest, ¬ History.Defines name x) :
    ∃ t, Reached setup before t ∧ (t.perform e.1).1 = e.2 ∧
      s.types.find? name = t.types.find? name := by
  obtain ⟨t, earlier, ran⟩ := reached.cut
  have found := find?_run earlier name ((e :: rest).map Prod.fst)
  rw [ran] at found
  rw [List.map_cons] at ran
  have first := congrArg (fun r => r.1.head?) ran
  exact ⟨t, earlier, (Prod.ext_iff.mp (Option.some.inj first)).2, found kept⟩

theorem width_lazyValue {type : TypeName} (made : (s.lazyValue type).1 = .ok v) :
    v.type = type ∧ ∃ d, s.types.find? type = some d ∧ v.width = d.width := by
  unfold lazyValue at made
  cases typed : s.lazyType type with
  | error e =>
    rw [typed] at made
    cases made
  | ok d =>
    rw [typed] at made
    cases made
    refine ⟨rfl, d, ?_, List.length_range'⟩
    unfold lazyType at typed
    obtain ⟨e, required, typed⟩ := Except.bind_eq_ok.mp typed
    have same : e = d := by
      by_cases classical : e.kind.isClassical = true
      · rw [if_pos classical] at typed
        cases typed
      · by_cases running : s.plan.contains e.kind = true
        · simpa [classical, running, pure, Except.pure] using typed
        · simp [classical, running, bind, Except.bind, throw, throwThe, MonadExceptOf.throw]
            at typed
    rw [← same]
    exact TypeTable.require_eq_ok.mp required

theorem width_compiled {types : TypeTable} {casts : CastTable} {running : OrderedSet Kind}
    {source target from_ into : TypeName} {kind : Kind} {width : Nat}
    (compiled : CastPlan.compile types casts running source target =
      .ok (.encode from_ into kind width)) :
    into = target ∧ ∃ d, types.find? target = some d ∧ width = d.width := by
  rcases CastPlan.compile_cases compiled with ⟨_, _, no⟩ | ⟨d, required, same⟩
  · cases no
  · cases same
    exact ⟨rfl, d, TypeTable.require_eq_ok.mp required, rfl⟩

theorem width_encode (calm : s.Calm) {x : Value} {target : TypeName}
    (made : (s.encode x target).1 = .ok v) :
    v.type = target ∧ ∃ d, s.types.find? target = some d ∧ v.width = d.width := by
  unfold encode at made
  split at made
  · cases made
  · rename_i plan compiled
    rw [dispatchAs_answer] at made
    obtain ⟨outcome, dispatched, kept⟩ := Except.bind_eq_ok.mp made
    cases outcome with
    | value w => cases kept
    | ticket t => cases kept
    | encoded w =>
      cases kept
      cases plan with
      | convert from_ into chain =>
        have none := (still_convert calm from_ into chain (.strict x)).1
        rw [dispatched] at none
        cases none
      | encode from_ into kind width =>
        obtain ⟨rfl, d, found, rfl⟩ := width_compiled compiled
        obtain ⟨w, ok, same⟩ := Except.map_eq_ok.mp dispatched
        cases same
        rcases encodeValue_cases calm x into kind d.width with
          ⟨e, _, refused⟩ | ⟨literal, b, _, _, _, encoded⟩
        · rw [refused] at ok
          cases ok
        · rw [encoded] at ok
          cases ok
          exact ⟨rfl, d, found, List.length_range'⟩

theorem width_made (calm : s.Calm) (makes : c.makes = true)
    (made : (s.perform c).1.handedOut? = some v) :
    ∃ d, s.types.find? v.type = some d ∧ v.width = d.width := by
  cases c with
  | lazyValue type =>
    obtain ⟨typed, wide⟩ := width_lazyValue (Answer.lazyValue_handedOut made)
    exact typed ▸ wide
  | encode x target =>
    obtain ⟨w, ok, same⟩ := Except.map_eq_ok.mp (Answer.cast_handedOut made)
    cases same
    obtain ⟨typed, wide⟩ := width_encode calm ok
    exact typed ▸ wide
  | _ => cases makes

end Definitions

section Members

/-- A value's qubits cut by the members of a type: every member has its own, and a cast of a member
    never reaches beyond them. -/
structure Sliced (s : Session) (v : LazyValue) (d : TypeDef) : Prop where
  slices : ∀ m ∈ d.members, memberQubits? v m = some (m.slice v.qubits)
  pieces : (d.members.flatMap fun m => m.slice v.qubits) = v.qubits
  apart : ∀ m ∈ d.members, ∀ n ∈ d.members, m.name ≠ n.name →
    (m.slice v.qubits).Disjoint (n.slice v.qubits)
  inside : ∀ member target, Spares Fault.isOutside (s.castMember v member target).1
  within : ∀ plan member, Spares Fault.isOutside (s.dispatch plan (.member v member)).1

variable {members : List (String × TypeName)} {types : List TypeDef}

theorem spares_require (t : TypeTable) (type : TypeName) :
    Spares Fault.isOutside (t.require type) := by
  unfold TypeTable.require
  split
  · exact spares_ok _
  · exact spares_error rfl

theorem spares_memberOf (root : LazyValue) (member : String) :
    Spares Fault.isOutside (s.memberOf root member) := by
  unfold memberOf
  apply (spares_require s.types root.type).bind
  intro d
  split
  · exact spares_ok _
  · exact spares_error rfl

theorem spares_compileCast (source target : TypeName) :
    Spares Fault.isOutside (s.compileCast source target) := by
  have functions : Spares Fault.isOutside (s.casts.compile source target) := by
    unfold CastTable.compile
    split
    · exact spares_ok _
    · split
      · exact spares_error rfl
      · split
        · exact spares_ok _
        · exact spares_error rfl
  unfold compileCast CastPlan.compile
  apply (spares_require s.types source).bind
  intro a
  apply (spares_require s.types target).bind
  intro b
  cases s.plan.contains a.kind with
  | false => exact spares_error rfl
  | true =>
    cases s.plan.contains b.kind with
    | false => exact spares_error rfl
    | true =>
      cases b.kind.isClassical with
      | true => exact functions.bind fun chain => spares_ok _
      | false =>
        cases a.kind.isClassical with
        | true => exact spares_ok _
        | false => exact spares_error rfl

theorem memberQubits?_inside {m : Member} (inside : m.offset + m.width ≤ v.width) :
    memberQubits? v m = some (m.slice v.qubits) := if_pos inside

theorem memberOf_mem {member : String} {m : Member} (found : s.types.find? v.type = some d)
    (looked : s.memberOf v member = .ok m) : m ∈ d.members := by
  unfold memberOf at looked
  obtain ⟨e, required, looked⟩ := Except.bind_eq_ok.mp looked
  cases found.symm.trans (TypeTable.require_eq_ok.mp required)
  split at looked
  · rename_i n here
    cases looked
    exact List.mem_of_find?_eq_some here
  · cases looked

theorem spares_deferrable (found : s.types.find? v.type = some d)
    (inside : ∀ m ∈ d.members, m.offset + m.width ≤ v.width) (member : String)
    (source target : TypeName) :
    Spares Fault.isOutside (s.deferrable v member source target) := by
  unfold deferrable
  cases looked : s.memberOf v member with
  | error e => exact spares_error (spares_memberOf v member e looked)
  | ok m =>
    have slice := memberQubits?_inside (inside m (memberOf_mem found looked))
    by_cases other : m.type ≠ source
    · simp only [bind, Except.bind, if_pos other]
      exact spares_error rfl
    · by_cases spent : s.arena.isSpent v.ledger = true
      · simp only [bind, Except.bind, if_neg other, if_pos spent]
        exact spares_error rfl
      · simp only [bind, Except.bind, if_neg other, if_neg spent, slice]
        exact spares_ok _

theorem spares_deferMember (calm : s.Calm) (found : s.types.find? v.type = some d)
    (inside : ∀ m ∈ d.members, m.offset + m.width ≤ v.width) (member : String)
    (source target : TypeName) (chain : CastChain) :
    Spares Fault.isOutside (s.deferMember v member source target chain).1 := by
  unfold deferMember
  cases allowed : s.deferrable v member source target with
  | error e => exact spares_error (spares_deferrable found inside member source target e allowed)
  | ok qubits =>
    dsimp only
    cases opened : s.arena.groups.open? v.ledger with
    | none =>
      rw [append_spent calm.tidy opened]
      exact spares_error rfl
    | some g =>
      obtain ⟨b, appended, _, _⟩ := append_open calm.tidy opened
        (memberCastInstruction s.nextTicket qubits)
      rw [appended]
      exact spares_ok _

theorem sliced (calm : s.Calm) (found : s.types.find? v.type = some d)
    (composes : TypeTable.Composes members types d) (wide : v.width = d.width)
    (distinct : v.qubits.Nodup) : Sliced s v d := by
  have inside : ∀ m ∈ d.members, m.offset + m.width ≤ v.width := by
    intro m mem
    rw [wide]
    exact (composes.tiles.within m mem).2
  have dispatched : ∀ plan member,
      Spares Fault.isOutside (s.dispatch plan (.member v member)).1 := by
    intro plan member
    cases plan with
    | encode from_ into kind width => exact spares_error rfl
    | convert from_ into chain =>
      exact (spares_deferMember calm found inside member from_ into chain).map _
  constructor
  · intro m mem
    exact memberQubits?_inside (inside m mem)
  · exact composes.tiles.pieces wide
  · intro m left n right other
    exact composes.tiles.disjoint distinct left right fun same => other (congrArg Member.name same)
  · intro member target
    unfold castMember
    cases looked : s.memberOf v member with
    | error e => exact spares_error (spares_memberOf v member e looked)
    | ok m =>
      dsimp only
      cases compiled : s.compileCast m.type target with
      | error e => exact spares_error (spares_compileCast m.type target e compiled)
      | ok plan =>
        dsimp only
        rw [dispatchAs_answer]
        apply (dispatched plan member).bind
        intro outcome
        split
        · exact spares_ok _
        · exact spares_error rfl
  · exact dispatched

end Members

/-- Lazy values take consecutive qubits, each value the next ones. A composite is laid out from the
    types that its members have when it is defined, and has the kind of the first of the highest
    level. Values made from it later are as wide as it, and are cut by its members for as long as
    its name is not defined again. A definition that fails changes nothing. -/
theorem members_tile (reached : Reached setup past s) :
    past.values.flatMap LazyValue.qubits = List.range s.allocator.nextQubit ∧
    (∀ v ∈ past.values, ∃ start, v.qubits = List.range' start v.width) ∧
    past.values.Pairwise (fun v w => v.qubits.Disjoint w.qubits) ∧
    (∀ before rest name members,
      past = before ++ (.defineComposite name members, .done (.ok ())) :: rest →
      (∀ e ∈ rest, ¬ History.Defines name e) →
      ∃ t types d, Reached setup before t ∧
        members.map (fun m => t.types.find? m.2) = types.map some ∧
        TypeTable.Composes members types d ∧ s.types.find? name = some d ∧
        (∀ e ∈ rest, ∀ v, e.1.makes = true → e.2.handedOut? = some v → v.type = name →
          v.width = d.width) ∧
        ∀ v ∈ past.values, v.type = name → v.width = d.width → Sliced s v d) ∧
    ∀ name members e, (s.defineComposite name members).1 = .error e →
      (s.defineComposite name members).2 = s := by
  refine ⟨reached.ranges.1, reached.ranges.2, reached.disjoint, ?_, ?_⟩
  · rintro before rest name members rfl kept
    obtain ⟨t, types, d, earlier, known, composes, found⟩ := reached.defined kept
    refine ⟨t, types, d, earlier, known, composes, found, ?_, ?_⟩
    · intro e mem v makes made typed
      obtain ⟨r₁, r₂, rfl⟩ := List.append_of_mem mem
      rw [← List.cons_append, ← List.append_assoc] at reached
      obtain ⟨u, later, answered, same⟩ := reached.entry
        fun x among => kept x (List.mem_append_right r₁ among)
      rw [← answered] at made
      obtain ⟨d', found', wide⟩ := width_made later.calm makes made
      rw [typed, ← same, found] at found'
      cases found'
      exact wide
    · intro v mem typed wide
      subst typed
      exact sliced reached.calm found composes wide (reached.nodup v mem)
  · intro name members e failed
    unfold defineComposite at failed ⊢
    split
    · rename_i d types made
      rw [made] at failed
      cases failed
    · rfl

def nestCalls : List Call :=
  [.defineComposite "pair" [("low", "@bool"), ("high", "@u2")],
    .defineComposite "nest" [("head", "@bool"), ("none", "sample"), ("body", "pair")],
    .lazyValue "@bool", .lazyValue "nest", .defineComposite "nest" [("lost", "nowhere")],
    .encode (.u32 5) "@u3"]

def nested : LazyValue := ⟨1, "nest", .quantum, ⟨1, 0⟩, [1, 2, 3, 4]⟩

theorem nested_tiled : ∃ past s d, Reached (.ofRegistry .builtin) past s ∧ nested ∈ past.values ∧
    past.values.flatMap LazyValue.qubits = List.range 8 ∧ s.types.find? "nest" = some d ∧
    d.members.map Member.width = [1, 0, 3] ∧ d.kind = .quantum ∧ Sliced s nested d := by
  obtain ⟨first, started⟩ : ∃ s, (SessionSetup.ofRegistry .builtin).start = .ok s := ⟨_, rfl⟩
  have reached := reached_run started nestCalls
  obtain ⟨mem, next, d, found, widths, kind, wide⟩ : nested ∈ (first.run nestCalls).1.values ∧
      (first.run nestCalls).2.allocator.nextQubit = 8 ∧
      ∃ d, (first.run nestCalls).2.types.find? "nest" = some d ∧
        d.members.map Member.width = [1, 0, 3] ∧ d.kind = .quantum ∧ nested.width = d.width := by
    cases started
    exact ⟨by decide, rfl, _, rfl, rfl, rfl, rfl⟩
  obtain ⟨before, rest, split, kept⟩ : ∃ before rest, (first.run nestCalls).1 = before ++
      (.defineComposite "nest" [("head", "@bool"), ("none", "sample"), ("body", "pair")],
        .done (.ok ())) :: rest ∧ ∀ e ∈ rest, ¬ History.Defines "nest" e := by
    cases started
    refine ⟨[_], _, rfl, ?_⟩
    intro e mem
    simp only [List.mem_cons, List.not_mem_nil, or_false] at mem
    rcases mem with rfl | rfl | rfl | rfl <;> exact id
  obtain ⟨covered, _, _, tiled, _⟩ := members_tile reached
  obtain ⟨t, types, d', _, _, composes, found', _, slices⟩ := tiled before rest _ _ split kept
  cases found.symm.trans found'
  exact ⟨_, _, d, reached, mem, next ▸ covered, found, widths, kind, slices nested mem rfl wide⟩

end Session
end LazyCast
