import LazyCast.Proofs.Orchestrator.Routed
import LazyCast.Proofs.Session.Consuming
/-!
What each call does to a session: ledgers grow or are pooled, a member cast is deferred, a ledger is
consumed by a lazy cast or discarded, a ticket is redeemed. Nothing else happens to ledgers, member
casts or workers, and between calls no ledger is frozen.
-/
namespace LazyCast.Session
variable {s after last : Session} {c : Call} {answer : Answer} {v : LazyValue}

structure SameBooks (s after : Session) : Prop where
  orchestrator : after.orchestrator = s.orchestrator
  casts : after.casts = s.casts
  interpreter : after.interpreter = s.interpreter
  nextTicket : after.nextTicket = s.nextTicket
  pending : after.pending = s.pending
  settled : after.settled = s.settled

theorem SameBooks.refl (s : Session) : SameBooks s s := ⟨rfl, rfl, rfl, rfl, rfl, rfl⟩

theorem SameBooks.trans (first : SameBooks s after) (second : SameBooks after last) :
    SameBooks s last :=
  ⟨second.orchestrator.trans first.orchestrator, second.casts.trans first.casts,
    second.interpreter.trans first.interpreter, second.nextTicket.trans first.nextTicket,
    second.pending.trans first.pending, second.settled.trans first.settled⟩

structure Grows (extra : List Nat) (s after : Session) : Prop where
  calm : after.Calm
  carries : Groups.Carries extra s.arena.groups after.arena.groups
  books : SameBooks s after

theorem Grows.refl (extra : List Nat) (calm : s.Calm) : Grows extra s s :=
  ⟨calm, .refl extra _, .refl s⟩

theorem Grows.trans {extra : List Nat} (first : Grows [] s after) (second : Grows extra after last) :
    Grows extra s last :=
  ⟨second.calm, first.carries.trans second.carries, first.books.trans second.books⟩

/-- What a call may do. A call that neither grows ledgers nor belongs to one of the other cases
    leaves the session as it is, which is the first case too. -/
inductive Effect (s : Session) (c : Call) (answer : Answer) (after : Session) : Prop where
  | grew (extra : List Nat) (grows : Grows extra s after) (only : ∀ t ∈ extra, ¬ c.Spares t)
      (unissued : answer.issued? = none) (unredeemed : History.redeemed? (c, answer) = none)
  | deferred (root : LazyValue) (defers : c.defers? = some root) (g : Group) (m : PendingMember)
      (b : Arena)
      (found : s.arena.groups.open? root.ledger = some g)
      (groups : b.groups =
        s.arena.groups.put (g.push (memberCastInstruction s.nextTicket m.qubits)))
      (tidy : b.Tidy) (within : ∀ q ∈ m.qubits, q ∈ root.qubits)
      (issued : answer.issued? = some s.nextTicket)
      (unredeemed : History.redeemed? (c, answer) = none)
      (left : after = { s.withArena b with
        nextTicket := s.nextTicket + 1, pending := s.pending.insert s.nextTicket m })
  | consumed (v : LazyValue) (casts : c.castsLazily? = some v) (chain : CastChain) (g : Group)
      (b : Arena) (found : s.arena.groups.open? v.ledger = some g)
      (groups : b.groups = s.arena.groups.dissolve g) (tidy : b.Tidy)
      (unissued : answer.issued? = none) (unredeemed : History.redeemed? (c, answer) = none)
      (left : after = ((s.withArena b).conclude v chain (g.measured v).frozen).2)
  | dropped (v : LazyValue) (call : c = .dropValue v) (said : answer = .dropped) (g : Group)
      (found : s.arena.groups.open? v.ledger = some g) (tidy : after.arena.Tidy)
      (groups : after.arena.groups = s.arena.groups.dissolve g) (books : SameBooks s after)
  | swept (call : c = .finish) (ds : List Diagnostic) (said : answer = .reports ds)
      (tidy : after.arena.Tidy) (groups : after.arena.groups = []) (books : SameBooks s after)
  | redeemed (t : MemberTicket) (call : c = .redeem t)
      (said : answer = .redeemed (s.settled.find? t.ticket))
      (left : after = { s with settled := s.settled.erase t.ticket })

theorem none_extra : ∀ t ∈ ([] : List Nat), ¬ c.Spares t := fun _ no => absurd no List.not_mem_nil

theorem ticketOf?_of_ne {i : Instruction} (other : i.opcode ≠ "cast") : ticketOf? i = none := by
  rw [ticketOf?, if_neg other]

theorem Call.WritesNoCast.spares (tame : c.WritesNoCast) (t : Nat) : c.Spares t := by
  cases c with
  | apply v kind opcode operands =>
    rw [Spares, ticketOf?_of_ne (i := ⟨0, opcode, operands, kind⟩) tame]
    exact (Option.some_ne_none t).symm
  | _ => trivial

theorem Call.WritesNoCast.extra_eq_nil (tame : c.WritesNoCast) {extra : List Nat}
    (only : ∀ t ∈ extra, ¬ c.Spares t) : extra = [] :=
  List.eq_nil_iff_forall_not_mem.mpr fun t mem => only t mem (tame.spares t)

theorem grows_append (calm : s.Calm) (h : Handle) (i : Instruction) :
    Grows (ticketOf? i).toList s (s.append h i).2 := by
  cases found : s.arena.groups.open? h with
  | none =>
    rw [append_spent calm.tidy found]
    exact .refl _ calm
  | some g =>
    obtain ⟨b, appended, groups, tidy⟩ := append_open calm.tidy found i
    obtain ⟨mem, _, isOpen⟩ := Groups.open?_spec found
    rw [appended]
    refine ⟨⟨tidy, ?_⟩, ?_, ⟨rfl, rfl, rfl, rfl, rfl, rfl⟩⟩
    · change b.groups.AllOpen
      rw [groups]
      exact calm.allOpen.put isOpen
    · change Groups.Carries _ _ b.groups
      rw [groups]
      exact Groups.carries_push calm.tidy.apart mem i

theorem mergeAll_grows {a : Arena} (tidy : a.Tidy) (allOpen : a.groups.AllOpen) (h : Handle)
    (rest : List Handle) : (a.mergeAll h rest).2.Tidy ∧ (a.mergeAll h rest).2.groups.AllOpen ∧
      Groups.Carries [] a.groups (a.mergeAll h rest).2.groups := by
  induction rest generalizing a h with
  | nil => exact ⟨tidy, allOpen, .refl [] _⟩
  | cons next rest ih =>
    have m := Arena.merge_matches tidy h next
    have carries := Groups.carries_merge tidy.apart h next
    have isOpen := allOpen.merge h next
    rw [← m.groups] at carries isOpen
    have tidy' := m.tidy
    rw [Arena.mergeAll]
    rcases merged : a.merge h next with ⟨e | h', b⟩ <;> rw [merged] at carries isOpen tidy'
    · exact ⟨tidy', isOpen, carries⟩
    · obtain ⟨tidy, allOpen, carries'⟩ := ih tidy' isOpen h'
      exact ⟨tidy, allOpen, carries.trans carries'⟩

theorem grows_interact (calm : s.Calm) (how : Interaction) (values : List LazyValue)
    (independent : Bool) : Grows [] s (s.interact how values independent).2 := by
  have pooled : ∀ {a : Arena}, a.Tidy → a.groups.AllOpen →
      Groups.Carries [] s.arena.groups a.groups → Grows [] s (s.withArena a) :=
    fun tidy allOpen carries => ⟨⟨tidy, allOpen⟩, carries, ⟨rfl, rfl, rfl, rfl, rfl, rfl⟩⟩
  unfold interact Arena.interact
  cases values.map LazyValue.ledger with
  | nil => exact .refl [] calm
  | cons first rest =>
    cases rest with
    | nil => exact .refl [] calm
    | cons second rest =>
      cases independent with
      | true => exact .refl [] calm
      | false =>
        obtain ⟨tidy, allOpen, carries⟩ :=
          mergeAll_grows calm.tidy calm.allOpen first (second :: rest)
        exact pooled tidy allOpen carries

theorem grows_allocate (calm : s.Calm) (type : TypeName) (kind : Kind) (width : Nat) :
    Grows [] s (s.allocate type kind width).2 := by
  have m := Arena.create_matches calm.tidy s.allocator.nextValue
  have apart := m.tidy.apart
  have allOpen := calm.allOpen.create (s.arena.create s.allocator.nextValue).1
    s.allocator.nextValue
  rw [m.groups] at apart
  refine ⟨⟨m.tidy, m.groups ▸ allOpen⟩, ?_, ⟨rfl, rfl, rfl, rfl, rfl, rfl⟩⟩
  change Groups.Carries [] _ (s.arena.create s.allocator.nextValue).2.groups
  rw [m.groups]
  exact Groups.carries_create apart

def freshGroup (q : LazyValue) : Group :=
  ⟨q.ledger, [q.ledger], [], OrderedSet.empty.insert q.id, .accumulating⟩

theorem allocate_open (calm : s.Calm) (type : TypeName) (kind : Kind) (width : Nat) :
    (s.allocate type kind width).2.arena.groups.open? (s.allocate type kind width).1.ledger =
      some (freshGroup (s.allocate type kind width).1) := by
  have made := (grows_allocate calm type kind width).calm.tidy.apart
  refine made.open?_of_mem ?_ List.mem_cons_self rfl
  exact (calm.tidy.mem_create s.allocator.nextValue).mpr (Or.inl rfl)

theorem grows_lazyValue (calm : s.Calm) (type : TypeName) :
    Grows [] s (s.lazyValue type).2 := by
  unfold lazyValue
  cases s.lazyType type with
  | ok d => exact grows_allocate calm type d.kind d.width
  | error e => exact .refl [] calm

theorem grows_applyWith (calm : s.Calm) (v : LazyValue) (kind : Kind) (opcode : String)
    (operands : List Operand) :
    Grows (ticketOf? ⟨0, opcode, operands, kind⟩).toList s
      (s.applyWith v kind opcode operands).2 := by
  unfold applyWith
  split
  · exact grows_append calm v.ledger _
  · exact .refl _ calm

theorem grows_encodeValue (calm : s.Calm) (v : Value) (target : TypeName) (kind : Kind)
    (width : Nat) : Grows [] s (s.encodeValue v target kind width).2 := by
  unfold encodeValue
  cases encodable v target width with
  | error e => exact .refl [] calm
  | ok literal =>
    have made := grows_allocate calm target kind width
    have wrote := grows_append made.calm (s.allocate target kind width).1.ledger
      ⟨0, "init", .int literal :: (s.allocate target kind width).1.qubitOperands, kind⟩
    exact made.trans wrote

theorem encodeValue_cases (calm : s.Calm) (v : Value) (target : TypeName) (kind : Kind)
    (width : Nat) :
    (∃ e, encodable v target width = .error e ∧
      s.encodeValue v target kind width = (.error e, s)) ∨
      ∃ literal b, encodable v target width = .ok literal ∧
        b.groups = (s.allocate target kind width).2.arena.groups.put
          ((freshGroup (s.allocate target kind width).1).push
            ⟨0, "init", .int literal :: (s.allocate target kind width).1.qubitOperands, kind⟩) ∧
        b.Tidy ∧ s.encodeValue v target kind width =
          (.ok (s.allocate target kind width).1, (s.allocate target kind width).2.withArena b) := by
  unfold encodeValue
  cases fits : encodable v target width with
  | error e => exact Or.inl ⟨e, rfl, rfl⟩
  | ok literal =>
    obtain ⟨b, appended, groups, tidy⟩ := append_open
      (grows_allocate calm target kind width).calm.tidy (allocate_open calm target kind width)
      ⟨0, "init", .int literal :: (s.allocate target kind width).1.qubitOperands, kind⟩
    exact Or.inr ⟨literal, b, rfl, groups, tidy,
      congrArg (Outcome.map fun _ => (s.allocate target kind width).1) appended⟩

theorem deferrable_within {root : LazyValue} {name : String} {source target : TypeName}
    {qubits : List Qubit} (allowed : s.deferrable root name source target = .ok qubits) :
    ∀ q ∈ qubits, q ∈ root.qubits := by
  unfold deferrable at allowed
  obtain ⟨m, _, allowed⟩ := Except.bind_eq_ok.mp allowed
  by_cases other : m.type ≠ source
  · rw [if_pos other] at allowed
    cases allowed
  · rw [if_neg other] at allowed
    by_cases spent : s.arena.isSpent root.ledger = true
    · rw [if_pos spent] at allowed
      cases allowed
    · rw [if_neg spent] at allowed
      cases found : memberQubits? root m with
      | none =>
        rw [found] at allowed
        cases allowed
      | some slice =>
        rw [found] at allowed
        cases allowed
        unfold memberQubits? at found
        split at found
        · cases found
          exact fun q mem => List.mem_of_mem_drop (List.mem_of_mem_take mem)
        · cases found

theorem deferMember_cases (calm : s.Calm) (root : LazyValue) (name : String)
    (source target : TypeName) (chain : CastChain) :
    (∃ e, s.deferMember root name source target chain = (.error e, s)) ∨
      ∃ qubits g b, s.deferrable root name source target = .ok qubits ∧
        s.arena.groups.open? root.ledger = some g ∧
        b.groups = s.arena.groups.put (g.push (memberCastInstruction s.nextTicket qubits)) ∧
        b.Tidy ∧ s.deferMember root name source target chain =
          (.ok ⟨s.nextTicket, root.id, name, target⟩, { s.withArena b with
            nextTicket := s.nextTicket + 1
            pending := s.pending.insert s.nextTicket ⟨chain, qubits⟩ }) := by
  unfold deferMember
  cases allowed : s.deferrable root name source target with
  | error e => exact Or.inl ⟨e, rfl⟩
  | ok qubits =>
    cases found : s.arena.groups.open? root.ledger with
    | none =>
      refine Or.inl ⟨.frozenLedger root.ledger.index, ?_⟩
      dsimp only
      rw [append_spent calm.tidy found]
      rfl
    | some g =>
      obtain ⟨b, appended, groups, tidy⟩ :=
        append_open calm.tidy found (memberCastInstruction s.nextTicket qubits)
      refine Or.inr ⟨qubits, g, b, rfl, rfl, groups, tidy, ?_⟩
      dsimp only
      rw [appended]
      rfl

theorem castLazy_cases (calm : s.Calm) (v : LazyValue) (chain : CastChain) :
    s.castLazy v chain = (.error (.doubleCast v.ledger.index), s) ∨
      ∃ g b, s.arena.groups.open? v.ledger = some g ∧ b.groups = s.arena.groups.dissolve g ∧
        b.Tidy ∧
        s.castLazy v chain = (s.withArena b).conclude v chain (g.measured v).frozen := by
  cases found : s.arena.groups.open? v.ledger with
  | none => exact Or.inl (castLazy_spent calm.tidy found chain)
  | some g =>
    obtain ⟨b, tidy, groups, same⟩ := castLazy_open calm.tidy found chain
    exact Or.inr ⟨g, b, rfl, groups, tidy, same⟩

section Dispatching

/-- The call casts a source: its own value lazily, a member of its own root. -/
structure Call.Casts (c : Call) (source : CastSource) : Prop where
  lazily : ∀ v, source = .deferred v → c.castsLazily? = some v
  defers : ∀ root name, source = .member root name → c.defers? = some root
  redeems_none : ∀ t, c ≠ .redeem t

theorem unredeemed_of_casts {source : CastSource} (casts : c.Casts source) (answer : Answer) :
    History.redeemed? (c, answer) = none := by
  cases c with
  | redeem t => exact absurd rfl (casts.redeems_none t)
  | _ => rfl

theorem unissued_dispatch (s : Session) (plan : CastPlan) {source : CastSource}
    (plain : source.isMember = false) :
    (Answer.cast (s.dispatch plan source).1).issued? = none := by
  have mapped : ∀ {α : Type} (r : Except Fault α) (f : α → CastOutcome),
      (∀ a t, f a ≠ .ticket t) → (Answer.cast (r.map f)).issued? = none := by
    intro α r f other
    cases r with
    | error e => rfl
    | ok a =>
      cases made : f a with
      | ticket t => exact absurd made (other a t)
      | value v => simp [Except.map, made, Answer.issued?]
      | encoded v => simp [Except.map, made, Answer.issued?]
  cases source with
  | member root name => cases plain
  | strict v =>
    cases plan with
    | encode from_ target kind width => exact mapped _ _ fun _ _ no => by cases no
    | convert from_ target chain =>
      rw [dispatch]
      split
      · exact mapped _ _ fun _ _ no => by cases no
      · rfl
  | deferred v =>
    cases plan with
    | encode from_ target kind width => rfl
    | convert from_ target chain =>
      rw [dispatch]
      split
      · exact mapped _ _ fun _ _ no => by cases no
      · rfl

theorem effect_dispatch (calm : s.Calm) {source : CastSource} (casts : c.Casts source)
    (plan : CastPlan)
    (said : answer.issued? = (Answer.cast (s.dispatch plan source).1).issued?) :
    Effect s c answer (s.dispatch plan source).2 := by
  have unredeemed := unredeemed_of_casts casts answer
  have still : answer.issued? = none → Effect s c answer s :=
    fun unissued => .grew [] (.refl [] calm) none_extra unissued unredeemed
  cases source with
  | strict v =>
    have unissued := said.trans (s.unissued_dispatch plan rfl)
    cases plan with
    | encode from_ target kind width =>
      exact .grew [] (grows_encodeValue calm v target kind width) none_extra unissued
        unredeemed
    | convert from_ target chain =>
      rw [dispatch]
      split <;> exact still unissued
  | deferred v =>
    have unissued := said.trans (s.unissued_dispatch plan rfl)
    cases plan with
    | encode from_ target kind width => exact still unissued
    | convert from_ target chain =>
      rw [dispatch]
      split
      · rcases castLazy_cases calm v chain with refused | ⟨g, b, found, groups, tidy, same⟩
        · rw [refused]
          exact still unissued
        · rw [same]
          exact .consumed v (casts.lazily v rfl) chain g b found groups tidy unissued unredeemed rfl
      · exact still unissued
  | member root name =>
    cases plan with
    | encode from_ target kind width => exact still said
    | convert from_ target chain =>
      rw [dispatch] at said ⊢
      rcases deferMember_cases calm root name from_ target chain with
        ⟨e, refused⟩ | ⟨qubits, g, b, allowed, found, groups, tidy, same⟩
      · rw [refused] at said ⊢
        exact still said
      · rw [same] at said ⊢
        exact .deferred root (casts.defers root name rfl) g ⟨chain, qubits⟩ b found groups tidy
          (deferrable_within allowed) said unredeemed rfl

theorem dispatchAs_left {α : Type} (s : Session) (plan : CastPlan) (source : CastSource)
    (refusal : Fault) (keep : CastOutcome → Option α) :
    (s.dispatchAs plan source refusal keep).2 = (s.dispatch plan source).2 := by
  unfold dispatchAs
  rcases s.dispatch plan source with ⟨e | outcome, left⟩
  · rfl
  · rw [Outcome.andThen_ok]
    cases keep outcome <;> rfl

theorem dispatchAs_answer {α : Type} (s : Session) (plan : CastPlan) (source : CastSource)
    (refusal : Fault) (keep : CastOutcome → Option α) :
    (s.dispatchAs plan source refusal keep).1 =
      (s.dispatch plan source).1.bind fun outcome =>
        match keep outcome with
        | some a => .ok a
        | none => .error refusal := by
  unfold dispatchAs
  rcases s.dispatch plan source with ⟨e | outcome, left⟩
  · rfl
  · rw [Outcome.andThen_ok]
    dsimp only [Except.bind]
    cases keep outcome <;> rfl

theorem issued_castMember (s : Session) (plan : CastPlan) (root : LazyValue) (name : String)
    (refusal : Fault) :
    (Answer.cast ((s.dispatchAs plan (.member root name) refusal CastOutcome.ticket?).1.map
      .ticket)).issued? = (Answer.cast (s.dispatch plan (.member root name)).1).issued? := by
  rw [dispatchAs_answer]
  rcases (s.dispatch plan (.member root name)).1 with e | outcome
  · rfl
  · cases outcome <;> rfl

end Dispatching

theorem effect_cast (calm : s.Calm) (source : CastSource) (target : TypeName) :
    Effect s (.cast source target) (.cast ((s.cast source target).1.map .value))
      (s.cast source target).2 := by
  have unissued : (Answer.cast ((s.cast source target).1.map .value)).issued? = none := by
    cases (s.cast source target).1 <;> rfl
  have still : Effect s (.cast source target)
      (.cast ((s.cast source target).1.map .value)) s :=
    .grew [] (.refl [] calm) none_extra unissued rfl
  generalize Answer.cast ((s.cast source target).1.map .value) = answer at unissued still ⊢
  unfold cast
  dsimp only
  split
  · exact still
  · rename_i plain
    split
    · exact still
    · rename_i plan _
      split
      · exact still
      · rw [dispatchAs_left]
        refine effect_dispatch calm ⟨fun v same => ?_, fun root name same => ?_, fun t no => ?_⟩
          plan ?_
        · rw [same]
          rfl
        · rw [same] at plain
          exact absurd rfl plain
        · cases no
        · rw [unissued, unissued_dispatch s plan (by simpa using plain)]

theorem effect_castMember (calm : s.Calm) (root : LazyValue) (name : String) (target : TypeName) :
    Effect s (.castMember root name target)
      (.cast ((s.castMember root name target).1.map .ticket))
      (s.castMember root name target).2 := by
  have casts : (Call.castMember root name target).Casts (.member root name) :=
    ⟨fun _ no => (by cases no), fun _ _ same => (by cases same; rfl), fun _ no => (by cases no)⟩
  have still : ∀ {answer : Answer}, answer.issued? = none →
      Effect s (.castMember root name target) answer s :=
    fun unissued => .grew [] (.refl [] calm) none_extra unissued rfl
  unfold castMember
  split
  · exact still rfl
  · split
    · exact still rfl
    · rw [dispatchAs_left]
      exact effect_dispatch calm casts _ (issued_castMember s _ root name _)

theorem effect_encode (calm : s.Calm) (v : Value) (target : TypeName) :
    Effect s (.encode v target) (.cast ((s.encode v target).1.map .encoded))
      (s.encode v target).2 := by
  have casts : (Call.encode v target).Casts (.strict v) :=
    ⟨fun _ no => (by cases no), fun _ _ no => (by cases no), fun _ no => (by cases no)⟩
  have unissued : (Answer.cast ((s.encode v target).1.map .encoded)).issued? = none := by
    cases (s.encode v target).1 <;> rfl
  generalize Answer.cast ((s.encode v target).1.map .encoded) = answer at unissued ⊢
  unfold encode
  split
  · exact .grew [] (.refl [] calm) none_extra unissued rfl
  · rename_i plan _
    rw [dispatchAs_left]
    exact effect_dispatch calm casts plan (unissued.trans (s.unissued_dispatch plan rfl).symm)

theorem effect_dropValue (calm : s.Calm) (v : LazyValue) :
    Effect s (.dropValue v) .dropped (s.dropValue v) := by
  have m := Arena.dropOwner_matches calm.tidy v.ledger v.id
  have books : SameBooks s (s.dropValue v) := ⟨rfl, rfl, rfl, rfl, rfl, rfl⟩
  have grew : Groups.Carries [] s.arena.groups (s.dropValue v).arena.groups →
      (s.dropValue v).arena.groups.AllOpen → Effect s (.dropValue v) .dropped (s.dropValue v) :=
    fun carries allOpen =>
      .grew [] ⟨⟨m.tidy, allOpen⟩, carries, books⟩ none_extra rfl rfl
  have groups : (s.dropValue v).arena.groups = (s.arena.groups.dropOwner v.ledger v.id).2 :=
    m.groups
  unfold Groups.dropOwner at groups
  cases found : s.arena.groups.open? v.ledger with
  | none =>
    simp only [found] at groups
    rw [groups] at grew
    exact grew (.refl [] _) calm.allOpen
  | some g =>
    obtain ⟨mem, _, isOpen⟩ := Groups.open?_spec found
    simp only [found] at groups
    split at groups
    · exact .dropped v rfl rfl g found m.tidy groups books
    · rw [groups] at grew
      let struck : Group := { g with owners := g.owners.erase v.id }
      exact grew (Groups.carries_put (k := struck) calm.tidy.apart mem rfl rfl
        (List.append_nil _).symm) (calm.allOpen.put isOpen)

theorem perform_effect (calm : s.Calm) (c : Call) : Effect s c (s.perform c).1 (s.perform c).2 := by
  have grew : ∀ {c answer after}, Grows [] s after → answer.issued? = none →
      History.redeemed? (c, answer) = none → Effect s c answer after :=
    fun grows => .grew [] grows none_extra
  cases c with
  | defineComposite name members =>
    refine grew ?_ rfl rfl
    change Grows [] s (s.defineComposite name members).2
    unfold defineComposite
    split
    · exact ⟨⟨calm.tidy, calm.allOpen⟩, .refl [] _, ⟨rfl, rfl, rfl, rfl, rfl, rfl⟩⟩
    · exact .refl [] calm
  | lazyValue type => exact grew (grows_lazyValue calm type) rfl rfl
  | apply v kind opcode operands =>
    refine .grew _ (grows_applyWith calm v kind opcode operands) (fun t mem spares => ?_) rfl rfl
    exact spares (Option.mem_toList.mp mem)
  | interact how values independent =>
    exact grew (grows_interact calm how values independent) rfl rfl
  | cast source target => exact effect_cast calm source target
  | castMember root name target => exact effect_castMember calm root name target
  | encode v target => exact effect_encode calm v target
  | dispatch plan source =>
    refine effect_dispatch calm ⟨fun v same => ?_, fun root name same => ?_, fun t no => ?_⟩ plan
      rfl
    · rw [same]
      rfl
    · rw [same]
      rfl
    · cases no
  | redeem t => exact .redeemed t rfl rfl rfl
  | dropValue v => exact effect_dropValue calm v
  | finish =>
    have m := Arena.sweep_matches calm.tidy
    refine .swept rfl _ rfl m.tidy ?_ ⟨rfl, rfl, rfl, rfl, rfl, rfl⟩
    change s.arena.sweep.2.groups = []
    rw [m.groups, calm.allOpen.sweep]

theorem Effect.calm (calm : s.Calm) (effect : Effect s c answer after) : after.Calm := by
  cases effect with
  | grew extra grows => exact grows.calm
  | deferred root defers g m b found groups tidy within issued unredeemed left =>
    rw [left]
    refine ⟨tidy, ?_⟩
    change b.groups.AllOpen
    rw [groups]
    exact calm.allOpen.put (Groups.open?_spec found).2.2
  | consumed v casts chain g b found groups tidy unissued unredeemed left =>
    have same := (sameOffice_conclude (s.withArena b) v chain (g.measured v).frozen).arena
    rw [← left] at same
    have same : after.arena = b := same
    refine ⟨same ▸ tidy, ?_⟩
    rw [same, groups]
    exact calm.allOpen.dissolve g
  | dropped v call said g found tidy groups books =>
    exact ⟨tidy, groups ▸ calm.allOpen.dissolve g⟩
  | swept call ds said tidy groups books =>
    refine ⟨tidy, ?_⟩
    rw [groups]
    exact fun g no => by cases no
  | redeemed t call said left =>
    rw [left]
    exact ⟨calm.tidy, calm.allOpen⟩

theorem start_eq_ok {setup : SessionSetup} {first : Session} (started : setup.start = .ok first) :
    ∃ plan o, setup.plan = .ok plan ∧
      Orchestrator.start setup.registry setup.modules plan setup.policy = .ok o ∧
      first = ⟨setup.types, setup.casts, setup.interpreter, o, .empty, ⟨0, 0⟩, 0, Table.empty,
        Table.empty, []⟩ := by
  unfold SessionSetup.start at started
  obtain ⟨plan, planned, started⟩ := Except.bind_eq_ok.mp started
  obtain ⟨o, running, started⟩ := Except.bind_eq_ok.mp started
  cases started
  exact ⟨plan, o, planned, running, rfl⟩

theorem calm_start {setup : SessionSetup} {first : Session} (started : setup.start = .ok first) :
    first.Calm := by
  obtain ⟨plan, o, _, _, rfl⟩ := start_eq_ok started
  exact ⟨Arena.tidy_empty, fun g no => by cases no⟩

theorem Reached.calm {setup : SessionSetup} {past : History} (reached : Reached setup past s) :
    s.Calm := by
  refine reached.induct (motive := fun _ s => s.Calm) (fun first started => calm_start started) ?_
  exact fun _ s c _ calm => (perform_effect calm c).calm calm

end LazyCast.Session
