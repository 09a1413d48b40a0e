import LazyCast.Proofs.Session.AllOrNothing
import LazyCast.Proofs.Session.Tickets
/-!
The life of a member ticket. It waits until the ledger that records its member cast, after whatever
merges, is consumed by a lazy cast of any value in it; that call settles it, however the run ends; it
is redeemed once; and a ticket whose ledger is discarded unused waits for ever.
-/
namespace LazyCast.Session
variable {setup : SessionSetup} {past : History} {s after : Session} {c : Call} {answer : Answer}

/-- The call casts `v` lazily, and this takes the open ledger of `v` out of the session. -/
structure Consumes (s : Session) (c : Call) (after : Session) (v : LazyValue) : Prop where
  casts : c.castsLazily? = some v
  opened : (s.state v).isOpen = true
  resolved : after.state v = .resolved

/-- What a call does to tickets. -/
structure Moves (s : Session) (c : Call) (answer : Answer) (after : Session) : Prop where
  /-- A ticket handed out is a new one: it waits, and the ledger of its root holds it. -/
  issues : ∀ t, answer.issued? = some t → t = s.nextTicket ∧
    after.pending.contains t = true ∧ ∃ root, c.defers? = some root ∧ after.Holds root t
  /-- All tickets of a ledger that is consumed are settled by the same call. -/
  settles : ∀ v, Consumes s c after v → ∀ t, s.Holds v t → s.pending.contains t = true ∧
    after.pending.contains t = false ∧ after.settled.contains t = true
  /-- All other waiting tickets go on waiting, for the same qubits and chain. -/
  waits : ∀ t, s.pending.contains t = true → (∀ v, Consumes s c after v → ¬ s.Holds v t) →
    after.pending.find? t = s.pending.find? t
  /-- What a ticket was settled with stays until it is redeemed. -/
  keeps : ∀ t, s.settled.contains t = true → (∀ ticket, c = .redeem ticket → ticket.ticket ≠ t) →
    after.settled.find? t = s.settled.find? t
  /-- A ledger that holds a ticket goes on holding it, pooled or not, unless it is consumed or
      discarded; in the latter case the ticket waits. -/
  holds_on : ∀ v t, s.Holds v t → after.Holds v t ∨ after.state v = .resolved ∧
    ((∃ w, Consumes s c after w ∧ s.Holds w t) ∨ after.pending.contains t = true)
  /-- No ledger comes to hold a ticket but the one in whose root it is issued. -/
  holds_no_more : ∀ v t, after.Holds v t → (∃ w, s.Holds w t) ∨ answer.issued? = some t

theorem state_of_groupOf? (calm : s.Calm) {v : LazyValue} {g : Group}
    (found : s.arena.groups.groupOf? v.ledger = some g) : (s.state v).isOpen = true := by
  rw [← calm.allOpen.open?_eq] at found
  rw [state, calm.tidy.state_of_open found]
  exact (Groups.open?_spec found).2.2

theorem holds_of_mem (calm : s.Calm) {g : Group} (mem : g ∈ s.arena.groups) {t : Nat}
    (inside : t ∈ g.tickets) : ∃ v, s.Holds v t := by
  refine ⟨⟨0, "", .classical, g.lead, []⟩, (holds_iff calm.tidy).mpr ⟨g, ?_, inside⟩⟩
  rw [calm.allOpen.open?_eq]
  exact calm.tidy.apart.groupOf?_of_mem mem (calm.tidy.apart.lead_mem g mem)

theorem holds_of_groupOf? (calm : s.Calm) {v : LazyValue} {g : Group} {t : Nat}
    (found : s.arena.groups.groupOf? v.ledger = some g) (inside : t ∈ g.tickets) : s.Holds v t :=
  (holds_iff calm.tidy).mpr ⟨g, (calm.allOpen.open?_eq _).trans found, inside⟩

theorem groupOf?_of_holds (calm : s.Calm) {v : LazyValue} {t : Nat} (holds : s.Holds v t) :
    ∃ g, s.arena.groups.groupOf? v.ledger = some g ∧ t ∈ g.tickets := by
  obtain ⟨g, found, inside⟩ := (holds_iff calm.tidy).mp holds
  exact ⟨g, (calm.allOpen.open?_eq _).symm.trans found, inside⟩

section Consuming
variable (calm : s.Calm)
include calm

theorem not_consumes_of_kept (calm' : after.Calm)
    (kept : ∀ h g, s.arena.groups.groupOf? h = some g → ∃ k, after.arena.groups.groupOf? h = some k)
    (v : LazyValue) : ¬ Consumes s c after v := by
  intro consumes
  have opened := consumes.opened
  rw [state, Arena.state_matches calm.tidy, Groups.state] at opened
  cases found : s.arena.groups.groupOf? v.ledger with
  | none =>
    rw [found] at opened
    cases opened
  | some g =>
    obtain ⟨k, found'⟩ := kept v.ledger g found
    have still := state_of_groupOf? calm' found'
    rw [consumes.resolved] at still
    cases still

omit calm in
theorem not_consumes_of_eager (eager : c.castsLazily? = none) (v : LazyValue) :
    ¬ Consumes s c after v := by
  intro consumes
  have casts := consumes.casts
  rw [eager] at casts
  cases casts

theorem consumes_of_dissolved {v : LazyValue} {g : Group} (casts : c.castsLazily? = some v)
    (found : s.arena.groups.open? v.ledger = some g) (tidy : after.arena.Tidy)
    (groups : after.arena.groups = s.arena.groups.dissolve g) : Consumes s c after v := by
  obtain ⟨mem, inside, isOpen⟩ := Groups.open?_spec found
  refine ⟨casts, ?_, ?_⟩
  · rw [state, calm.tidy.state_of_open found]
    exact isOpen
  · refine Arena.state_of_dissolved calm.tidy groups found tidy ?_
    rw [calm.tidy.sameLedger_of_open found, calm.tidy.apart.groupOf?_of_mem mem inside]
    simp

theorem holds_or_dissolved (calm' : after.Calm) {k : Handle} {g : Group}
    (found : s.arena.groups.open? k = some g)
    (groups : after.arena.groups = s.arena.groups.dissolve g) {v : LazyValue} {t : Nat}
    (holds : s.Holds v t) : after.Holds v t ∨ after.state v = .resolved ∧ t ∈ g.tickets := by
  obtain ⟨l, group, inside⟩ := groupOf?_of_holds calm holds
  cases same : s.arena.sameLedger v.ledger k with
  | false =>
    rw [← Arena.groupOf?_of_dissolved calm.tidy groups found same] at group
    exact Or.inl (holds_of_groupOf? calm' group inside)
  | true =>
    refine Or.inr ⟨Arena.state_of_dissolved calm.tidy groups found calm'.tidy same, ?_⟩
    rw [calm.tidy.sameLedger_of_open found, group, Option.map_some, Option.getD_some,
      decide_eq_true_eq] at same
    rwa [← calm.tidy.apart.lead_injective (Groups.groupOf?_spec group).1
      (Groups.open?_spec found).1 same]

theorem holds_before_of_dissolved (calm' : after.Calm) {g : Group}
    (groups : after.arena.groups = s.arena.groups.dissolve g) {v : LazyValue} {t : Nat}
    (holds : after.Holds v t) : ∃ w, s.Holds w t := by
  obtain ⟨k, found, inside⟩ := groupOf?_of_holds calm' holds
  have mem := (Groups.groupOf?_spec found).1
  rw [groups] at mem
  exact holds_of_mem calm (Groups.mem_dissolve.mp mem).1 inside

theorem holds_before_of_carried (calm' : after.Calm) {extra : List Nat}
    (carries : Groups.Carries extra s.arena.groups after.arena.groups) {v : LazyValue} {t : Nat}
    (holds : after.Holds v t) : t ∈ extra ∨ ∃ w, s.Holds w t := by
  obtain ⟨k, found, inside⟩ := groupOf?_of_holds calm' holds
  refine (carries.origin k (Groups.groupOf?_spec found).1 t inside).imp_right ?_
  exact fun ⟨g, mem, ing⟩ => holds_of_mem calm mem ing

theorem holds_after_of_carried (calm' : after.Calm) {extra : List Nat}
    (carries : Groups.Carries extra s.arena.groups after.arena.groups) {v : LazyValue} {t : Nat}
    (holds : s.Holds v t) : after.Holds v t := by
  obtain ⟨g, found, inside⟩ := groupOf?_of_holds calm holds
  obtain ⟨k, found', carried⟩ := carries.kept _ g found
  exact holds_of_groupOf? calm' found' (carried t inside)

end Consuming

section Moving
variable (calm : s.Calm) (calm' : after.Calm)
include calm calm'

theorem moves_grew (carries : Groups.Carries [] s.arena.groups after.arena.groups)
    (books : SameBooks s after) (unissued : answer.issued? = none) : Moves s c answer after where
  issues t said := by
    rw [unissued] at said
    cases said
  settles v consumes := absurd consumes (not_consumes_of_kept calm calm'
    (fun h g found => (carries.kept h g found).imp fun _ => And.left) v)
  waits t _ _ := by rw [books.pending]
  keeps t _ _ := by rw [books.settled]
  holds_on v t holds := Or.inl (holds_after_of_carried calm calm' carries holds)
  holds_no_more v t holds :=
    Or.inl ((holds_before_of_carried calm calm' carries holds).resolve_left (by simp))

theorem moves_dropped (accounted : Accounted past s) (eager : c.castsLazily? = none)
    (unissued : answer.issued? = none) {k : Handle} {g : Group}
    (found : s.arena.groups.open? k = some g)
    (groups : after.arena.groups = s.arena.groups.dissolve g) (books : SameBooks s after) :
    Moves s c answer after where
  issues t said := by
    rw [unissued] at said
    cases said
  settles v consumes := absurd consumes (not_consumes_of_eager eager v)
  waits t _ _ := by rw [books.pending]
  keeps t _ _ := by rw [books.settled]
  holds_on v t holds := by
    refine (holds_or_dissolved calm calm' found groups holds).imp_right ?_
    rintro ⟨resolved, inside⟩
    refine ⟨resolved, Or.inr ?_⟩
    rw [books.pending]
    exact accounted.held_waits g (Groups.open?_spec found).1 t inside
  holds_no_more v t holds := Or.inl (holds_before_of_dissolved calm calm' groups holds)

theorem moves_swept (accounted : Accounted past s) (eager : c.castsLazily? = none)
    (unissued : answer.issued? = none) (groups : after.arena.groups = [])
    (books : SameBooks s after) : Moves s c answer after where
  issues t said := by
    rw [unissued] at said
    cases said
  settles v consumes := absurd consumes (not_consumes_of_eager eager v)
  waits t _ _ := by rw [books.pending]
  keeps t _ _ := by rw [books.settled]
  holds_on v t holds := by
    obtain ⟨g, found, inside⟩ := groupOf?_of_holds calm holds
    refine Or.inr ⟨?_, Or.inr ?_⟩
    · rw [state, Arena.state_matches calm'.tidy, groups]
      rfl
    · rw [books.pending]
      exact accounted.held_waits g (Groups.groupOf?_spec found).1 t inside
  holds_no_more v t holds := by
    obtain ⟨k, found, _⟩ := groupOf?_of_holds calm' holds
    rw [groups] at found
    cases found

omit calm calm' in
theorem moves_redeemed (ticket : MemberTicket) : Moves s (.redeem ticket)
    (.redeemed (s.settled.find? ticket.ticket))
    { s with settled := s.settled.erase ticket.ticket } where
  issues t said := by cases said
  settles v consumes := absurd consumes (not_consumes_of_eager rfl v)
  waits t _ _ := rfl
  keeps t _ other := Table.find?_erase_of_ne _ (other ticket rfl).symm
  holds_on v t holds := Or.inl holds
  holds_no_more v t holds := Or.inl ⟨v, holds⟩

omit calm' in
theorem moves_deferred (small : s.nextTicket < UInt32.size) (accounted : Accounted past s)
    {root : LazyValue} (defers : c.defers? = some root) {g : Group} {m : PendingMember} {b : Arena}
    (found : s.arena.groups.open? root.ledger = some g)
    (groups : b.groups =
      s.arena.groups.put (g.push (memberCastInstruction s.nextTicket m.qubits)))
    (issued : answer.issued? = some s.nextTicket)
    (calm' : Calm { s.withArena b with
      nextTicket := s.nextTicket + 1, pending := s.pending.insert s.nextTicket m }) :
    Moves s c answer { s.withArena b with
      nextTicket := s.nextTicket + 1, pending := s.pending.insert s.nextTicket m } := by
  obtain ⟨mem, inside, _⟩ := Groups.open?_spec found
  have new : ticketOf? (memberCastInstruction s.nextTicket m.qubits) = some s.nextTicket :=
    ticketOf?_memberCast small m.qubits
  have carries : Groups.Carries [s.nextTicket] s.arena.groups b.groups := by
    have carries := Groups.carries_push calm.tidy.apart mem
      (memberCastInstruction s.nextTicket m.qubits)
    rwa [new, ← groups] at carries
  have pushed : b.groups.groupOf? root.ledger =
      some (g.push (memberCastInstruction s.nextTicket m.qubits)) := by
    rw [groups, calm.tidy.apart.groupOf?_put (g := g.push _) mem rfl rfl,
      calm.tidy.apart.groupOf?_of_mem mem inside, Option.map_some, if_pos rfl]
  refine ⟨fun t said => ?_, fun v consumes => ?_, fun t waits _ => ?_, fun t _ _ => rfl,
    fun v t holds => Or.inl (holds_after_of_carried calm calm' carries holds), fun v t holds => ?_⟩
  · rw [issued] at said
    cases said
    refine ⟨rfl, ?_, root, defers, holds_of_groupOf? calm' pushed ?_⟩
    · rw [Table.contains]
      dsimp only
      rw [Table.find?_insert_self]
      rfl
    · rw [Group.tickets_push, new]
      simp
  · exact absurd consumes (not_consumes_of_kept calm calm'
      (fun h g found => (carries.kept h g found).imp fun _ => And.left) v)
  · refine Table.find?_insert_of_ne _ _ fun same => ?_
    rw [same, (accounted.placed.unissued (Nat.le_refl _)).1] at waits
    cases waits
  · refine (holds_before_of_carried calm calm' carries holds).symm.imp id fun new => ?_
    rw [issued, List.mem_singleton.mp new]

omit calm' in
theorem moves_consumed (accounted : Accounted past s) {v : LazyValue}
    (casts : c.castsLazily? = some v) (chain : CastChain) {g : Group} {b : Arena}
    (found : s.arena.groups.open? v.ledger = some g)
    (groups : b.groups = s.arena.groups.dissolve g) (unissued : answer.issued? = none)
    (calm' : ((s.withArena b).conclude v chain (g.measured v).frozen).2.Calm) :
    Moves s c answer ((s.withArena b).conclude v chain (g.measured v).frozen).2 := by
  have same := sameOffice_conclude (s.withArena b) v chain (g.measured v).frozen
  have groups : ((s.withArena b).conclude v chain (g.measured v).frozen).2.arena.groups =
      s.arena.groups.dissolve g := by
    rw [same.arena]
    exact groups
  have tickets : memberTickets (g.measured v).frozen = g.tickets := measured_tickets g v
  have pending := pending_conclude (s.withArena b) v chain (g.measured v).frozen
  rw [tickets] at pending
  have mem := (Groups.open?_spec found).1
  have consumes := consumes_of_dissolved calm casts found calm'.tidy groups
  have held : ∀ t, s.Holds v t ↔ t ∈ g.tickets := by
    intro t
    rw [holds_iff calm.tidy, found]
    simp
  refine ⟨fun t said => ?_, fun w consumes' t holds => ?_, fun t _ outside => ?_,
    fun t settled _ => ?_, fun w t holds => ?_,
    fun w t holds => Or.inl (holds_before_of_dissolved calm calm' groups holds)⟩
  · rw [unissued] at said
    cases said
  · obtain rfl : w = v := Option.some.inj (consumes'.casts.symm.trans casts)
    have inside := (held t).mp holds
    have waits := accounted.held_waits g mem t inside
    refine ⟨waits, ?_, settled_conclude_of_mem (s := s.withArena b) w chain
      (l := (g.measured w).frozen) (tickets ▸ inside) waits⟩
    rw [Table.contains, pending t, if_pos inside]
    rfl
  · exact (pending t).trans (if_neg fun inside => outside v consumes ((held t).mpr inside))
  · refine settled_conclude_of_notMem (s.withArena b) v chain fun inside => ?_
    rw [tickets] at inside
    have waits := accounted.placed.waiting (accounted.held_waits g mem t inside)
    rw [waits.2.1] at settled
    cases settled
  · refine (holds_or_dissolved calm calm' found groups holds).imp_right ?_
    rintro ⟨resolved, inside⟩
    exact ⟨resolved, Or.inl ⟨v, consumes, (held t).mpr inside⟩⟩

end Moving

theorem Effect.moves (calm : s.Calm) (accounted : Accounted past s) (tame : c.WritesNoCast)
    (few : after.nextTicket ≤ UInt32.size) (effect : Effect s c answer after) :
    Moves s c answer after := by
  have calm' := effect.calm calm
  cases effect with
  | grew extra grows only unissued unredeemed =>
    obtain rfl := tame.extra_eq_nil only
    exact moves_grew calm calm' grows.carries grows.books unissued
  | deferred root defers g m b found groups tidy within issued unredeemed left =>
    subst left
    exact moves_deferred calm few accounted defers found groups issued calm'
  | consumed v casts chain g b found groups tidy unissued unredeemed left =>
    subst left
    exact moves_consumed calm accounted casts chain found groups unissued calm'
  | dropped v call said g found tidy groups books =>
    subst call said
    exact moves_dropped calm calm' accounted rfl rfl found groups books
  | swept call ds said tidy groups books =>
    subst call said
    exact moves_swept calm calm' accounted rfl rfl groups books
  | redeemed ticket call said left =>
    subst call said left
    exact moves_redeemed ticket

theorem nextTicket_le_run (calm : s.Calm) (more : List Call) :
    s.nextTicket ≤ (s.run more).2.nextTicket := by
  induction more generalizing s with
  | nil => exact Nat.le_refl _
  | cons c rest ih =>
    have effect := perform_effect calm c
    exact Nat.le_trans effect.nextTicket_le (ih (effect.calm calm))

def firstPair : LazyValue := ⟨0, "pair", .quantum, ⟨0, 0⟩, [0, 1]⟩

def firstPairCalls : List Call :=
  [.defineComposite "pair" [("low", "@bool"), ("high", "@bool")], .lazyValue "pair",
    .castMember firstPair "low" "u64"]

end LazyCast.Session
