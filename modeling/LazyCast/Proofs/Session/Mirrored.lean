import LazyCast.Proofs.Ledger.Mirrored
import LazyCast.Proofs.Session.Effects
/-!
Two sessions that differ in their numbers. They have the same types, casts and tickets and workers
that are alike, and some values of theirs correspond: to each other's qubits, owners and ledgers.
Calls that name corresponding values keep it so, whatever other values there are.
-/
namespace LazyCast
variable {f : Qubit → Qubit} {γ : ValueId → ValueId}

/-- The same value under other numbers, whatever its handle. -/
structure LazyValue.Mirrors (f : Qubit → Qubit) (γ : ValueId → ValueId) (v w : LazyValue) :
    Prop where
  id : w.id = γ v.id
  type : w.type = v.type
  kind : w.kind = v.kind
  qubits : w.qubits = v.qubits.map f

theorem LazyValue.Mirrors.operands {v w : LazyValue} (mirrors : v.Mirrors f γ w) :
    w.qubitOperands = v.qubitOperands.map (Operand.rename f) := by
  unfold qubitOperands
  rw [mirrors.qubits, List.map_map, List.map_map]
  rfl

theorem Group.Mirrors.measured {g g' : Group} (like : g.Mirrors f γ g') {v w : LazyValue}
    (mirrors : v.Mirrors f γ w) : (g.measured v).Mirrors f γ (g'.measured w) := by
  have closing : Session.measurement w = (Session.measurement v).rename f := by
    unfold Session.measurement Instruction.rename
    rw [mirrors.operands, mirrors.kind]
  unfold Group.measured
  rw [mirrors.qubits, List.isEmpty_map, closing]
  split
  · exact like
  · exact like.push _

namespace Session

abbrev Pair := LazyValue × LazyValue

def Pair.handles (p : Pair) : Handle × Handle := (p.1.ledger, p.2.ledger)

variable {pairs : List Pair} {s s' t t' : Session} {p : Pair}

structure Mirrored (f : Qubit → Qubit) (γ : ValueId → ValueId) (pairs : List Pair)
    (s s' : Session) : Prop where
  calm : s.Calm
  calm' : s'.Calm
  types : s'.types = s.types
  casts : s'.casts = s.casts
  nextTicket : s'.nextTicket = s.nextTicket
  office : Orchestrator.Renamed f s.orchestrator s'.orchestrator
  nextQubit : ∀ n, f (s.allocator.nextQubit + n) = s'.allocator.nextQubit + n
  nextValue : ∀ n, γ (s.allocator.nextValue + n) = s'.allocator.nextValue + n
  values : ∀ p ∈ pairs, p.1.Mirrors f γ p.2
  groups : Groups.Mirrored f γ (pairs.map Pair.handles) s.arena.groups s'.arena.groups

namespace Mirrored

theorem plan (m : Mirrored f γ pairs s s') : s'.plan = s.plan := m.office.plan

theorem mono {fewer : List Pair} (m : Mirrored f γ pairs s s') (within : ∀ p ∈ fewer, p ∈ pairs) :
    Mirrored f γ fewer s s' := by
  refine ⟨m.calm, m.calm', m.types, m.casts, m.nextTicket, m.office, m.nextQubit, m.nextValue,
    fun p mem => m.values p (within p mem), m.groups.mono ?_⟩
  intro h mem
  obtain ⟨p, among, rfl⟩ := List.mem_map.mp mem
  exact List.mem_map_of_mem (within p among)

theorem withArena (m : Mirrored f γ pairs s s') {a a' : Arena} (tidy : a.Tidy) (tidy' : a'.Tidy)
    (allOpen : a.groups.AllOpen) (allOpen' : a'.groups.AllOpen)
    (groups : Groups.Mirrored f γ (pairs.map Pair.handles) a.groups a'.groups) :
    Mirrored f γ pairs (s.withArena a) (s'.withArena a') :=
  ⟨⟨tidy, allOpen⟩, ⟨tidy', allOpen'⟩, m.types, m.casts, m.nextTicket, m.office, m.nextQubit,
    m.nextValue, m.values, groups⟩

theorem settled (m : Mirrored f γ pairs s s') (same : SameOffice s t) (same' : SameOffice s' t') :
    Mirrored f γ pairs t t' where
  calm := ⟨same.arena ▸ m.calm.tidy, same.arena ▸ m.calm.allOpen⟩
  calm' := ⟨same'.arena ▸ m.calm'.tidy, same'.arena ▸ m.calm'.allOpen⟩
  types := by rw [same'.types, m.types, same.types]
  casts := by rw [same'.casts, m.casts, same.casts]
  nextTicket := by rw [same'.nextTicket, m.nextTicket, same.nextTicket]
  office := by
    rw [same.orchestrator, same'.orchestrator]
    exact m.office
  nextQubit := by
    rw [same.allocator, same'.allocator]
    exact m.nextQubit
  nextValue := by
    rw [same.allocator, same'.allocator]
    exact m.nextValue
  values := m.values
  groups := by
    rw [same.arena, same'.arena]
    exact m.groups

theorem cases (m : Mirrored f γ pairs s s') (mem : p ∈ pairs) :
    (s.arena.groups.open? p.1.ledger = none ∧ s'.arena.groups.open? p.2.ledger = none) ∨
      ∃ g g', s.arena.groups.open? p.1.ledger = some g ∧
        s'.arena.groups.open? p.2.ledger = some g' ∧ g.Mirrors f γ g' := by
  rw [m.calm.allOpen.open?_eq, m.calm'.allOpen.open?_eq]
  exact m.groups.cases (List.mem_map_of_mem mem)

theorem isSpent (m : Mirrored f γ pairs s s') (mem : p ∈ pairs) :
    s'.arena.isSpent p.2.ledger = s.arena.isSpent p.1.ledger := by
  rw [m.calm.tidy.isSpent_eq, m.calm'.tidy.isSpent_eq]
  rcases m.cases mem with ⟨none, none'⟩ | ⟨g, g', found, found', _⟩
  · rw [none, none']
  · rw [found, found']
    rfl

theorem append (m : Mirrored f γ pairs s s') (mem : p ∈ pairs) (i : Instruction) :
    (∃ e e', s.append p.1.ledger i = (.error e, s) ∧
      s'.append p.2.ledger (i.rename f) = (.error e', s')) ∨
      ∃ n n' a a', s.append p.1.ledger i = (.ok n, s.withArena a) ∧
        s'.append p.2.ledger (i.rename f) = (.ok n', s'.withArena a') ∧
        Mirrored f γ pairs (s.withArena a) (s'.withArena a') := by
  rcases m.cases mem with ⟨none, none'⟩ | ⟨g, g', found, found', mirrors⟩
  · exact Or.inl ⟨_, _, append_spent m.calm.tidy none i, append_spent m.calm'.tidy none' _⟩
  · obtain ⟨a, appended, groups, tidy⟩ := append_open m.calm.tidy found i
    obtain ⟨a', appended', groups', tidy'⟩ := append_open m.calm'.tidy found' (i.rename f)
    refine Or.inr ⟨_, _, a, a', appended, appended', m.withArena tidy tidy' ?_ ?_ ?_⟩
    · rw [groups]
      exact m.calm.allOpen.put (Groups.open?_spec found).2.2
    · rw [groups']
      exact m.calm'.allOpen.put (Groups.open?_spec found').2.2
    · rw [groups, groups']
      rw [m.calm.allOpen.open?_eq] at found
      rw [m.calm'.allOpen.open?_eq] at found'
      exact m.groups.put m.calm.tidy.apart m.calm'.tidy.apart (List.mem_map_of_mem mem) found
        found' rfl rfl rfl rfl (mirrors.push i)

theorem append_left (m : Mirrored f γ pairs s s') (mem : p ∈ pairs) (i : Instruction) :
    Mirrored f γ pairs (s.append p.1.ledger i).2 (s'.append p.2.ledger (i.rename f)).2 := by
  rcases m.append mem i with ⟨e, e', failed, failed'⟩ | ⟨n, n', a, a', done, done', next⟩
  · rw [failed, failed']
    exact m
  · rw [done, done']
    exact next

theorem applyWith (m : Mirrored f γ pairs s s') (mem : p ∈ pairs) (kind : Kind) (opcode : String)
    (operands : List Operand) :
    Mirrored f γ pairs (s.applyWith p.1 kind opcode operands).2
      (s'.applyWith p.2 kind opcode (operands.map (Operand.rename f))).2 := by
  unfold Session.applyWith
  rw [m.plan]
  split
  · exact m.append_left mem ⟨0, opcode, operands, kind⟩
  · exact m

theorem interact (m : Mirrored f γ pairs s s') (rising : StrictMono γ) {values : List Pair}
    (within : ∀ p ∈ values, p ∈ pairs) (how : Interaction) (independent : Bool) :
    Mirrored f γ pairs (s.interact how (values.map Prod.fst) independent).2
      (s'.interact how (values.map Prod.snd) independent).2 := by
  have left := grows_interact m.calm how (values.map Prod.fst) independent
  have right := grows_interact m.calm' how (values.map Prod.snd) independent
  have handles : ∀ q ∈ values.map Pair.handles, q ∈ pairs.map Pair.handles := by
    intro q mem
    obtain ⟨p, among, rfl⟩ := List.mem_map.mp mem
    exact List.mem_map_of_mem (within p among)
  have pooled := m.groups.interact rising m.calm.tidy.apart m.calm'.tidy.apart m.calm.allOpen
    m.calm'.allOpen handles independent
  have first : (values.map Prod.fst).map LazyValue.ledger =
      (values.map Pair.handles).map Prod.fst := by
    rw [List.map_map, List.map_map]
    rfl
  have second : (values.map Prod.snd).map LazyValue.ledger =
      (values.map Pair.handles).map Prod.snd := by
    rw [List.map_map, List.map_map]
    rfl
  rw [← first, ← second] at pooled
  have groups := (Arena.interact_matches m.calm.tidy how
    ((values.map Prod.fst).map LazyValue.ledger) independent).groups
  have groups' := (Arena.interact_matches m.calm'.tidy how
    ((values.map Prod.snd).map LazyValue.ledger) independent).groups
  rw [← groups, ← groups'] at pooled
  exact m.withArena left.calm.tidy right.calm.tidy left.calm.allOpen right.calm.allOpen pooled

theorem dropValue (m : Mirrored f γ pairs s s') (rising : StrictMono γ) (mem : p ∈ pairs) :
    Mirrored f γ pairs (s.dropValue p.1) (s'.dropValue p.2) := by
  have left := (perform_effect m.calm (.dropValue p.1)).calm m.calm
  have right := (perform_effect m.calm' (.dropValue p.2)).calm m.calm'
  have dropped := m.groups.dropOwner rising m.calm.tidy.apart m.calm'.tidy.apart m.calm.allOpen
    m.calm'.allOpen (List.mem_map_of_mem mem) p.1.id
  have groups := (Arena.dropOwner_matches m.calm.tidy p.1.ledger p.1.id).groups
  have groups' := (Arena.dropOwner_matches m.calm'.tidy p.2.ledger p.2.id).groups
  rw [(m.values p mem).id] at groups'
  unfold Pair.handles at dropped
  rw [← groups, ← groups', ← (m.values p mem).id] at dropped
  exact ⟨left, right, m.types, m.casts, m.nextTicket, m.office, m.nextQubit, m.nextValue, m.values,
    dropped⟩

theorem allocate (m : Mirrored f γ pairs s s')
    (opened : ∀ p ∈ pairs, s.arena.groups.open? p.1.ledger ≠ none) (type : TypeName) (kind : Kind)
    (width : Nat) :
    Mirrored f γ (((s.allocate type kind width).1, (s'.allocate type kind width).1) :: pairs)
      (s.allocate type kind width).2 (s'.allocate type kind width).2 := by
  have left := grows_allocate m.calm type kind width
  have right := grows_allocate m.calm' type kind width
  have owner : s'.allocator.nextValue = γ s.allocator.nextValue := (m.nextValue 0).symm
  have opened : ∀ h ∈ pairs.map Pair.handles, s.arena.groups.groupOf? h.1 ≠ none := by
    intro h mem
    obtain ⟨p, among, rfl⟩ := List.mem_map.mp mem
    exact m.calm.allOpen.open?_eq p.1.ledger ▸ opened p among
  have created := m.calm.tidy.mirrored_create m.calm'.tidy m.groups opened s.allocator.nextValue
  rw [← owner] at created
  have qubits : List.range' s'.allocator.nextQubit width =
      (List.range' s.allocator.nextQubit width).map f := by
    rw [List.range'_eq_map_range, List.range'_eq_map_range, List.map_map]
    apply List.map_congr_left
    intro n _
    exact (m.nextQubit n).symm
  refine ⟨left.calm, right.calm, m.types, m.casts, m.nextTicket, m.office, fun n => ?_,
    fun n => ?_, fun p mem => ?_, created⟩
  · change f (s.allocator.nextQubit + width + n) = s'.allocator.nextQubit + width + n
    rw [Nat.add_assoc, Nat.add_assoc]
    exact m.nextQubit _
  · change γ (s.allocator.nextValue + 1 + n) = s'.allocator.nextValue + 1 + n
    rw [Nat.add_assoc, Nat.add_assoc]
    exact m.nextValue _
  · rcases List.mem_cons.mp mem with rfl | mem
    · exact ⟨owner, rfl, rfl, qubits⟩
    · exact m.values p mem

theorem lazyType (m : Mirrored f γ pairs s s') (type : TypeName) :
    s'.lazyType type = s.lazyType type := by
  unfold Session.lazyType
  rw [m.types, m.plan]

theorem lazyValue (m : Mirrored f γ pairs s s')
    (opened : ∀ p ∈ pairs, s.arena.groups.open? p.1.ledger ≠ none) (type : TypeName) :
    ∃ more : Option Pair,
      (Answer.lazyValue (s.lazyValue type).1).handedOut? = more.map Prod.fst ∧
      (Answer.lazyValue (s'.lazyValue type).1).handedOut? = more.map Prod.snd ∧
      Mirrored f γ (more.toList ++ pairs) (s.lazyValue type).2 (s'.lazyValue type).2 := by
  unfold Session.lazyValue
  rw [m.lazyType]
  cases s.lazyType type with
  | error e => exact ⟨none, rfl, rfl, m⟩
  | ok d => exact ⟨some (_, _), rfl, rfl, m.allocate opened type d.kind d.width⟩

theorem encodeValue (m : Mirrored f γ pairs s s')
    (opened : ∀ p ∈ pairs, s.arena.groups.open? p.1.ledger ≠ none) (v : Value) (target : TypeName)
    (kind : Kind) (width : Nat) :
    ∃ more : Option Pair,
      (Answer.cast ((s.encodeValue v target kind width).1.map .encoded)).handedOut? =
        more.map Prod.fst ∧
      (Answer.cast ((s'.encodeValue v target kind width).1.map .encoded)).handedOut? =
        more.map Prod.snd ∧
      Mirrored f γ (more.toList ++ pairs) (s.encodeValue v target kind width).2
        (s'.encodeValue v target kind width).2 := by
  unfold Session.encodeValue
  cases encodable v target width with
  | error e => exact ⟨none, rfl, rfl, m⟩
  | ok literal =>
    have made := m.allocate opened target kind width
    have fresh := allocate_open m.calm target kind width
    dsimp only
    generalize s.allocate target kind width = r at made fresh ⊢
    generalize s'.allocate target kind width = r' at made ⊢
    obtain ⟨q, after⟩ := r
    obtain ⟨q', after'⟩ := r'
    have operands := (made.values (q, q') List.mem_cons_self).operands
    dsimp only at operands fresh ⊢
    rw [operands]
    rcases made.append List.mem_cons_self ⟨0, "init", .int literal :: q.qubitOperands, kind⟩ with
      ⟨e, e', failed, _⟩ | ⟨n, n', a, a', done, done', next⟩
    · obtain ⟨b, appended, _, _⟩ := append_open made.calm.tidy fresh
        ⟨0, "init", .int literal :: q.qubitOperands, kind⟩
      cases failed.symm.trans appended
    · change after'.append q'.ledger ⟨0, "init",
        .int literal :: q.qubitOperands.map (Operand.rename f), kind⟩ = _ at done'
      dsimp only at done
      rw [done, done']
      exact ⟨some (q, q'), rfl, rfl, next⟩

/-- Both ledgers are spent, or both run: the same course under either numbers. -/
theorem castLazy (m : Mirrored f γ pairs s s') (mem : p ∈ pairs) (chain : CastChain) :
    Mirrored f γ pairs (s.castLazy p.1 chain).2 (s'.castLazy p.2 chain).2 := by
  rcases m.cases mem with ⟨none, none'⟩ | ⟨g, g', found, found', mirrors⟩
  · rw [castLazy_spent m.calm.tidy none, castLazy_spent m.calm'.tidy none']
    exact m
  · obtain ⟨a, tidy, groups, same⟩ := castLazy_open m.calm.tidy found chain
    obtain ⟨a', tidy', groups', same'⟩ := castLazy_open m.calm'.tidy found' chain
    rw [m.calm.allOpen.open?_eq] at found
    rw [m.calm'.allOpen.open?_eq] at found'
    have dissolved := m.groups.dissolve m.calm.tidy.apart m.calm'.tidy.apart
      (List.mem_map_of_mem mem) found found'
    have allOpen := m.calm.allOpen.dissolve g
    have allOpen' := m.calm'.allOpen.dissolve g'
    rw [← groups] at allOpen
    rw [← groups'] at allOpen'
    rw [← groups, ← groups'] at dissolved
    have emptied := m.withArena tidy tidy' allOpen allOpen' dissolved
    have ran := m.office.run (mirrors.measured (m.values p mem)).frozen
    have worked : Mirrored f γ pairs
        { s.withArena a with
          orchestrator := (s.orchestrator.run (g.measured p.1).frozen).2 }
        { s'.withArena a' with
          orchestrator := (s'.orchestrator.run (g'.measured p.2).frozen).2 } :=
      { emptied with
        calm := ⟨emptied.calm.tidy, emptied.calm.allOpen⟩
        calm' := ⟨emptied.calm'.tidy, emptied.calm'.allOpen⟩
        office := ran.left }
    rw [same, same']
    exact worked.settled (sameOffice_conclude (s.withArena a) p.1 chain (g.measured p.1).frozen)
      (sameOffice_conclude (s'.withArena a') p.2 chain (g'.measured p.2).frozen)

theorem memberOf (m : Mirrored f γ pairs s s') (mem : p ∈ pairs) (name : String) :
    s'.memberOf p.2 name = s.memberOf p.1 name := by
  unfold Session.memberOf
  rw [m.types, (m.values p mem).type]

theorem deferrable (m : Mirrored f γ pairs s s') (mem : p ∈ pairs) (name : String)
    (source target : TypeName) :
    (∃ e e', s.deferrable p.1 name source target = .error e ∧
      s'.deferrable p.2 name source target = .error e') ∨
      ∃ qs, s.deferrable p.1 name source target = .ok qs ∧
        s'.deferrable p.2 name source target = .ok (qs.map f) := by
  have slices : ∀ member : Member,
      memberQubits? p.2 member = (memberQubits? p.1 member).map (List.map f) := by
    intro member
    unfold memberQubits?
    rw [(m.values p mem).qubits, List.length_map]
    split
    · rw [Option.map_some, List.map_take, List.map_drop]
    · rfl
  unfold Session.deferrable
  rw [m.memberOf mem, m.isSpent mem]
  cases s.memberOf p.1 name with
  | error e => exact Or.inl ⟨e, e, rfl, rfl⟩
  | ok member =>
    simp only [bind, Except.bind, slices]
    by_cases other : member.type ≠ source
    · rw [if_pos other, if_pos other]
      exact Or.inl ⟨_, _, rfl, rfl⟩
    · rw [if_neg other, if_neg other]
      cases s.arena.isSpent p.1.ledger with
      | true => exact Or.inl ⟨_, _, rfl, rfl⟩
      | false =>
        cases memberQubits? p.1 member with
        | none => exact Or.inl ⟨_, _, rfl, rfl⟩
        | some qs => exact Or.inr ⟨qs, rfl, rfl⟩

theorem deferMember (m : Mirrored f γ pairs s s') (mem : p ∈ pairs) (name : String)
    (source target : TypeName) (chain : CastChain) :
    Mirrored f γ pairs (s.deferMember p.1 name source target chain).2
      (s'.deferMember p.2 name source target chain).2 := by
  unfold Session.deferMember
  rcases m.deferrable mem name source target with
    ⟨e, e', refused, refused'⟩ | ⟨qs, allowed, allowed'⟩
  · rw [refused, refused']
    exact m
  · have renamed_cast : memberCastInstruction s.nextTicket (qs.map f) =
        (memberCastInstruction s.nextTicket qs).rename f := by
      unfold memberCastInstruction Instruction.rename
      simp [Operand.rename]
    rw [allowed, allowed', m.nextTicket]
    dsimp only
    rw [renamed_cast]
    rcases m.append mem (memberCastInstruction s.nextTicket qs) with
      ⟨e, e', failed, failed'⟩ | ⟨n, n', a, a', done, done', next⟩
    · rw [failed, failed']
      exact m
    · rw [done, done', Outcome.andThen_ok, Outcome.andThen_ok]
      exact { next with
        calm := ⟨next.calm.tidy, next.calm.allOpen⟩
        calm' := ⟨next.calm'.tidy, next.calm'.allOpen⟩
        nextTicket := rfl }

end Mirrored

inductive SourcePair (pairs : List Pair) : CastSource → CastSource → Prop where
  | strict (v : Value) : SourcePair pairs (.strict v) (.strict v)
  | deferred {p : Pair} (mem : p ∈ pairs) : SourcePair pairs (.deferred p.1) (.deferred p.2)
  | member {p : Pair} (mem : p ∈ pairs) (name : String) :
    SourcePair pairs (.member p.1 name) (.member p.2 name)

/-- Calls that name values of the same pairs, and qubits by corresponding numbers. -/
inductive CallPair (f : Qubit → Qubit) (pairs : List Pair) : Call → Call → Prop where
  | defineComposite (name : TypeName) (members : List (String × TypeName)) :
    CallPair f pairs (.defineComposite name members) (.defineComposite name members)
  | lazyValue (type : TypeName) : CallPair f pairs (.lazyValue type) (.lazyValue type)
  | apply {p : Pair} (mem : p ∈ pairs) (kind : Kind) (opcode : String) (operands : List Operand) :
    CallPair f pairs (.apply p.1 kind opcode operands)
      (.apply p.2 kind opcode (operands.map (Operand.rename f)))
  | interact (how : Interaction) {values : List Pair} (within : ∀ p ∈ values, p ∈ pairs)
    (independent : Bool) :
    CallPair f pairs (.interact how (values.map Prod.fst) independent)
      (.interact how (values.map Prod.snd) independent)
  | cast {source source' : CastSource} (related : SourcePair pairs source source')
    (target : TypeName) : CallPair f pairs (.cast source target) (.cast source' target)
  | castMember {p : Pair} (mem : p ∈ pairs) (name : String) (target : TypeName) :
    CallPair f pairs (.castMember p.1 name target) (.castMember p.2 name target)
  | encode (v : Value) (target : TypeName) : CallPair f pairs (.encode v target) (.encode v target)
  | dispatch (plan : CastPlan) {source source' : CastSource}
    (related : SourcePair pairs source source') :
    CallPair f pairs (.dispatch plan source) (.dispatch plan source')
  | redeem (ticket : MemberTicket) : CallPair f pairs (.redeem ticket) (.redeem ticket)
  | dropValue {p : Pair} (mem : p ∈ pairs) : CallPair f pairs (.dropValue p.1) (.dropValue p.2)
  | finish : CallPair f pairs .finish .finish

structure Hands (f : Qubit → Qubit) (γ : ValueId → ValueId) (pairs : List Pair)
    (more : Option Pair) (r r' : Answer × Session) : Prop where
  first : r.1.handedOut? = more.map Prod.fst
  second : r'.1.handedOut? = more.map Prod.snd
  left : Mirrored f γ (more.toList ++ pairs) r.2 r'.2

theorem Hands.none {r r' : Answer × Session} (first : r.1.handedOut? = .none)
    (second : r'.1.handedOut? = .none) (left : Mirrored f γ pairs r.2 r'.2) :
    Hands f γ pairs .none r r' := ⟨first, second, left⟩

theorem handedOut_map {α : Type} (r : Except Fault α) {on : α → CastOutcome}
    (other : ∀ a, (on a).encoded? = none) : (Answer.cast (r.map on)).handedOut? = none := by
  cases r with
  | error e => rfl
  | ok a =>
    have unencoded := other a
    change (Answer.cast (.ok (on a))).handedOut? = none
    cases made : on a with
    | encoded v =>
      rw [made] at unencoded
      cases unencoded
    | value v => rfl
    | ticket t => rfl

namespace Mirrored
variable (m : Mirrored f γ pairs s s')
  (opened : ∀ p ∈ pairs, s.arena.groups.open? p.1.ledger ≠ none)
include m

theorem compileCast (source target : TypeName) :
    s'.compileCast source target = s.compileCast source target := by
  unfold Session.compileCast
  rw [m.types, m.casts, m.plan]

include opened

theorem dispatch (plan : CastPlan) {source source' : CastSource}
    (related : SourcePair pairs source source') :
    ∃ more, Hands f γ pairs more (s.perform (.dispatch plan source))
      (s'.perform (.dispatch plan source')) := by
  have value : ∀ v : Value, (CastOutcome.value v).encoded? = none := fun _ => rfl
  have ticket : ∀ t : MemberTicket, (CastOutcome.ticket t).encoded? = none := fun _ => rfl
  unfold perform
  cases related with
  | strict v =>
    cases plan with
    | encode from_ target kind width =>
      obtain ⟨more, first, second, left⟩ := m.encodeValue opened v target kind width
      exact ⟨more, first, second, left⟩
    | convert from_ target chain =>
      refine ⟨_, .none ?_ ?_ ?_⟩ <;> dsimp only [Session.dispatch] <;> split
      · exact handedOut_map _ value
      · rfl
      · exact handedOut_map _ value
      · rfl
      · exact m
      · exact m
  | @deferred p mem =>
    cases plan with
    | encode from_ target kind width => exact ⟨_, .none rfl rfl m⟩
    | convert from_ target chain =>
      have type := (m.values p mem).type
      refine ⟨_, .none ?_ ?_ ?_⟩ <;> dsimp only [Session.dispatch]
      · split
        · exact handedOut_map _ value
        · rfl
      · split
        · exact handedOut_map _ value
        · rfl
      · rw [type]
        split
        · exact m.castLazy mem chain
        · exact m
  | @member p mem name =>
    cases plan with
    | encode from_ target kind width => exact ⟨_, .none rfl rfl m⟩
    | convert from_ target chain =>
      exact ⟨_, .none (handedOut_map _ ticket) (handedOut_map _ ticket)
        (m.deferMember mem name from_ target chain)⟩

theorem dispatchAs {α : Type} (plan : CastPlan) {source source' : CastSource}
    (related : SourcePair pairs source source') (refusal refusal' : Fault)
    (keep : CastOutcome → Option α) :
    Mirrored f γ pairs (s.dispatchAs plan source refusal keep).2
      (s'.dispatchAs plan source' refusal' keep).2 := by
  obtain ⟨more, _, _, left⟩ := m.dispatch opened plan related
  rw [dispatchAs_left, dispatchAs_left]
  exact left.mono fun p mem => List.mem_append_right _ mem

theorem cast {source source' : CastSource} (related : SourcePair pairs source source')
    (target : TypeName) :
    Mirrored f γ pairs (s.cast source target).2 (s'.cast source' target).2 := by
  have type : source'.type = source.type := by
    cases related with
    | strict v => rfl
    | deferred mem => exact (m.values _ mem).type
    | member mem name => exact congrArg (· ++ "." ++ name) (m.values _ mem).type
  have isMember : source'.isMember = source.isMember := by
    cases related <;> rfl
  unfold Session.cast
  rw [isMember, type, m.compileCast]
  dsimp only
  split
  · exact m
  · split
    · exact m
    · split
      · exact m
      · exact m.dispatchAs opened _ related _ _ _

theorem castMember {p : Pair} (mem : p ∈ pairs) (name : String) (target : TypeName) :
    Mirrored f γ pairs (s.castMember p.1 name target).2 (s'.castMember p.2 name target).2 := by
  unfold Session.castMember
  rw [m.memberOf mem]
  cases s.memberOf p.1 name with
  | error e => exact m
  | ok member =>
    dsimp only
    rw [m.compileCast]
    split
    · exact m
    · exact m.dispatchAs opened _ (.member mem name) _ _ _

theorem encode (v : Value) (target : TypeName) :
    ∃ more, Hands f γ pairs more (s.perform (.encode v target))
      (s'.perform (.encode v target)) := by
  have kept : ∀ (t : Session) (plan : CastPlan) (refusal : Fault),
      (Answer.cast ((t.dispatchAs plan (.strict v) refusal CastOutcome.encoded?).1.map
        .encoded)).handedOut? = (Answer.cast (t.dispatch plan (.strict v)).1).handedOut? := by
    intro t plan refusal
    rw [dispatchAs_answer]
    rcases (t.dispatch plan (.strict v)).1 with e | outcome
    · rfl
    · cases outcome <;> rfl
  dsimp only [Session.perform, Session.encode]
  rw [m.compileCast]
  cases s.compileCast v.typeName target with
  | error e => exact ⟨_, .none rfl rfl m⟩
  | ok plan =>
    obtain ⟨more, first, second, left⟩ := m.dispatch opened plan (.strict v)
    refine ⟨more, (kept _ _ _).trans first, (kept _ _ _).trans second, ?_⟩
    dsimp only
    rw [dispatchAs_left, dispatchAs_left]
    exact left

theorem perform (rising : StrictMono γ) {c c' : Call} (related : CallPair f pairs c c') :
    ∃ more, Hands f γ pairs more (s.perform c) (s'.perform c') := by
  have value : ∀ v : Value, (CastOutcome.value v).encoded? = none := fun _ => rfl
  have ticket : ∀ t : MemberTicket, (CastOutcome.ticket t).encoded? = none := fun _ => rfl
  cases related with
  | defineComposite name members =>
    refine ⟨_, .none rfl rfl ?_⟩
    change Mirrored f γ pairs (s.defineComposite name members).2
      (s'.defineComposite name members).2
    unfold Session.defineComposite
    rw [m.types]
    cases s.types.defineComposite name members with
    | error e => exact m
    | ok made => exact { m with
        calm := ⟨m.calm.tidy, m.calm.allOpen⟩
        calm' := ⟨m.calm'.tidy, m.calm'.allOpen⟩
        types := rfl }
  | lazyValue type =>
    obtain ⟨more, first, second, left⟩ := m.lazyValue opened type
    exact ⟨more, first, second, left⟩
  | apply mem kind opcode operands =>
    exact ⟨_, .none rfl rfl (m.applyWith mem kind opcode operands)⟩
  | interact how within independent =>
    exact ⟨_, .none rfl rfl (m.interact rising within how independent)⟩
  | cast related target =>
    exact ⟨_, .none (handedOut_map _ value) (handedOut_map _ value) (m.cast opened related target)⟩
  | castMember mem name target =>
    exact ⟨_, .none (handedOut_map _ ticket) (handedOut_map _ ticket)
      (m.castMember opened mem name target)⟩
  | encode v target => exact m.encode opened v target
  | dispatch plan related => exact m.dispatch opened plan related
  | redeem ticket =>
    refine ⟨_, .none rfl rfl ?_⟩
    exact m.settled ⟨rfl, rfl, rfl, rfl, rfl, rfl, rfl, rfl⟩ ⟨rfl, rfl, rfl, rfl, rfl, rfl, rfl, rfl⟩
  | dropValue mem => exact ⟨_, .none rfl rfl (m.dropValue rising mem)⟩
  | finish =>
    have calm := (perform_effect m.calm .finish).calm m.calm
    have calm' := (perform_effect m.calm' .finish).calm m.calm'
    have none : s.arena.sweep.2.groups = [] := by
      rw [(Arena.sweep_matches m.calm.tidy).groups, m.calm.allOpen.sweep]
    have none' : s'.arena.sweep.2.groups = [] := by
      rw [(Arena.sweep_matches m.calm'.tidy).groups, m.calm'.allOpen.sweep]
    refine ⟨_, .none rfl rfl ⟨calm, calm', m.types, m.casts, m.nextTicket, m.office, m.nextQubit,
      m.nextValue, m.values, ?_, ?_⟩⟩
    · intro p _
      change Option.Rel _ (s.arena.sweep.2.groups.groupOf? p.1)
        (s'.arena.sweep.2.groups.groupOf? p.2)
      rw [none, none']
      exact .none
    · intro p _ q _ g g' l l' found
      change s.arena.sweep.2.groups.groupOf? p.1 = some g at found
      rw [none] at found
      cases found

end Mirrored
end Session
end LazyCast
