import LazyCast.Proofs.Ledger.Sight
import LazyCast.Proofs.Session.Coverage
/-!
Tickets of values apart. The ledger that holds a ticket is that of the value it was deferred on, so
calls that cast no value of this ledger leave the ticket as it is, and nothing is settled before one
of them does. All of this is said of tickets that no instruction written by hand reads as.
-/
namespace LazyCast

namespace Session
variable {setup : SessionSetup} {past : History} {s after : Session} {c : Call} {answer : Answer}
  {t : Nat}

theorem History.deferredOn_concat {b : LazyValue} :
    History.DeferredOn (past ++ [(c, answer)]) t b ↔
      past.DeferredOn t b ∨ answer.issued? = some t ∧ c.defers? = some b := by
  simp only [DeferredOn, List.mem_append, List.mem_singleton]
  constructor
  · rintro ⟨e, mem | rfl, issued⟩
    · exact Or.inl ⟨e, mem, issued⟩
    · exact Or.inr issued
  · rintro (⟨e, mem, issued⟩ | issued)
    · exact ⟨e, Or.inl mem, issued⟩
    · exact ⟨_, Or.inr rfl, issued⟩

/-- A ticket is held by the ledger of the value it was deferred on, and one not yet handed out is
    nowhere. -/
structure Tied (past : History) (s : Session) (t : Nat) : Prop where
  rooted : ∀ b, past.DeferredOn t b → t < s.nextTicket ∧
    ∀ g ∈ s.arena.groups, t ∈ g.tickets → b.ledger ∈ g.handles
  unissued : s.nextTicket ≤ t → (∀ g ∈ s.arena.groups, t ∉ g.tickets) ∧
    s.pending.find? t = none ∧ s.settled.find? t = none

theorem Tied.shared (tied : Tied past s t) (calm : s.Calm) {b v : LazyValue}
    (deferred : past.DeferredOn t b) (holds : s.Holds v t) :
    s.arena.sameLedger v.ledger b.ledger = true := by
  obtain ⟨g, found, inside⟩ := groupOf?_of_holds calm holds
  obtain ⟨mem, here⟩ := Groups.groupOf?_spec found
  exact calm.tidy.sameLedger_of_group mem here ((tied.rooted b deferred).2 g mem inside)

/-- Where a ticket stands, and what redeeming it gives. -/
structure Untouched (t : Nat) (s after : Session) : Prop where
  pending : after.pending.find? t = s.pending.find? t
  settled : after.settled.find? t = s.settled.find? t
  redeems : ∀ ticket : MemberTicket, ticket.ticket = t →
    (after.redeem ticket).1 = (s.redeem ticket).1

theorem untouched_of_find? (pending : after.pending.find? t = s.pending.find? t)
    (settled : after.settled.find? t = s.settled.find? t) : Untouched t s after :=
  ⟨pending, settled, fun ticket same => by rw [redeem, redeem, same]; exact settled⟩

theorem Untouched.refl (t : Nat) (s : Session) : Untouched t s s := untouched_of_find? rfl rfl

theorem Untouched.trans {last : Session} (first : Untouched t s after)
    (second : Untouched t after last) : Untouched t s last :=
  untouched_of_find? (second.pending.trans first.pending) (second.settled.trans first.settled)

theorem SameBooks.untouched (books : SameBooks s after) (t : Nat) : Untouched t s after :=
  untouched_of_find? (by rw [books.pending]) (by rw [books.settled])

theorem Effect.issued_eq (effect : Effect s c answer after) (issued : answer.issued? = some t) :
    t = s.nextTicket ∧ after.nextTicket = t + 1 ∧ after.settled = s.settled := by
  cases effect with
  | deferred root defers g m b found groups tidy within issued' unredeemed left =>
    obtain rfl : s.nextTicket = t := Option.some.inj (issued'.symm.trans issued)
    exact ⟨rfl, by rw [left], by rw [left]; rfl⟩
  | grew extra grows only unissued unredeemed =>
    rw [unissued] at issued
    cases issued
  | consumed v casts chain g b found groups tidy unissued unredeemed left =>
    rw [unissued] at issued
    cases issued
  | dropped v call said g found tidy groups books =>
    rw [said] at issued
    cases issued
  | swept call ds said tidy groups books =>
    rw [said] at issued
    cases issued
  | redeemed ticket call said left =>
    rw [said] at issued
    cases issued

theorem groups_of_consumed {v : LazyValue} {chain : CastChain} {g : Group} {b : Arena}
    (groups : b.groups = s.arena.groups.dissolve g)
    (left : after = ((s.withArena b).conclude v chain (g.measured v).frozen).2) :
    after.arena.groups = s.arena.groups.dissolve g := by
  rw [left, (sameOffice_conclude (s.withArena b) v chain (g.measured v).frozen).arena, ← groups]
  rfl

theorem Effect.held (effect : Effect s c answer after) (spares : c.Spares t)
    (few : after.nextTicket ≤ UInt32.size) {k : Group} (mem : k ∈ after.arena.groups)
    (inside : t ∈ k.tickets) :
    (∃ g ∈ s.arena.groups, t ∈ g.tickets ∧ ∀ h ∈ g.handles, h ∈ k.handles) ∨
      answer.issued? = some t ∧ ∃ root, c.defers? = some root ∧ root.ledger ∈ k.handles := by
  have dissolved : ∀ {g}, after.arena.groups = s.arena.groups.dissolve g →
      ∃ g ∈ s.arena.groups, t ∈ g.tickets ∧ ∀ h ∈ g.handles, h ∈ k.handles := by
    intro g groups
    rw [groups] at mem
    exact ⟨k, (Groups.mem_dissolve.mp mem).1, inside, fun _ here => here⟩
  cases effect with
  | grew extra grows only unissued unredeemed =>
    exact Or.inl ((grows.carries.tracked k mem t inside).resolve_left fun extra =>
      only t extra spares)
  | deferred root defers g m b found groups tidy within issued unredeemed left =>
    obtain ⟨memg, here, _⟩ := Groups.open?_spec found
    have small : s.nextTicket < UInt32.size := by
      rw [left] at few
      exact few
    have mem : k ∈ b.groups := by
      rw [left] at mem
      exact mem
    rw [groups] at mem
    rcases Groups.mem_put_cases mem with rfl | ⟨mem, _⟩
    · rw [Group.tickets_push, ticketOf?_memberCast small] at inside
      rcases List.mem_append.mp inside with old | new
      · exact Or.inl ⟨g, memg, old, fun _ here => here⟩
      · obtain rfl : t = s.nextTicket := by simpa using new
        exact Or.inr ⟨issued, root, defers, here⟩
    · exact Or.inl ⟨k, mem, inside, fun _ here => here⟩
  | consumed v casts chain g b found groups tidy unissued unredeemed left =>
    exact Or.inl (dissolved (groups_of_consumed groups left))
  | dropped v call said g found tidy groups books => exact Or.inl (dissolved groups)
  | swept call ds said tidy groups books =>
    rw [groups] at mem
    cases mem
  | redeemed ticket call said left =>
    rw [left] at mem
    exact Or.inl ⟨k, mem, inside, fun _ here => here⟩

theorem Effect.leaves (effect : Effect s c answer after) (calm : s.Calm) (t : Nat) :
    Untouched t s after ∨ (∃ v, Consumes s c after v ∧ s.Holds v t) ∨
      (∃ ticket, c = .redeem ticket ∧ ticket.ticket = t ∧ s.settled.find? t ≠ none) ∨
      answer.issued? = some t := by
  have calm' := effect.calm calm
  cases effect with
  | grew extra grows only unissued unredeemed => exact Or.inl (grows.books.untouched t)
  | deferred root defers g m b found groups tidy within issued unredeemed left =>
    by_cases new : t = s.nextTicket
    · exact Or.inr (Or.inr (Or.inr (new ▸ issued)))
    · rw [left]
      exact Or.inl (untouched_of_find? (Table.find?_insert_of_ne _ _ new) rfl)
  | consumed v casts chain g b found groups tidy unissued unredeemed left =>
    by_cases inside : t ∈ g.tickets
    · exact Or.inr (Or.inl ⟨v, consumes_of_dissolved calm casts found calm'.tidy
        (groups_of_consumed groups left), (holds_iff calm.tidy).mpr ⟨g, found, inside⟩⟩)
    · have outside : t ∉ memberTickets (g.measured v).frozen := by
        change t ∉ (g.measured v).tickets
        rwa [measured_tickets]
      have pending := pending_conclude (s.withArena b) v chain (g.measured v).frozen t
      rw [if_neg outside] at pending
      rw [left]
      exact Or.inl (untouched_of_find? pending
        (settled_conclude_of_notMem (s.withArena b) v chain outside))
  | dropped v call said g found tidy groups books => exact Or.inl (books.untouched t)
  | swept call ds said tidy groups books => exact Or.inl (books.untouched t)
  | redeemed ticket call said left =>
    by_cases same : ticket.ticket = t
    · subst same
      by_cases done : s.settled.find? ticket.ticket = none
      · rw [left]
        exact Or.inl (untouched_of_find? rfl ((Table.find?_erase_self _ _).trans done.symm))
      · exact Or.inr (Or.inr (Or.inl ⟨ticket, call, rfl, done⟩))
    · rw [left]
      exact Or.inl (untouched_of_find? rfl (Table.find?_erase_of_ne _ (Ne.symm same)))

theorem Effect.tied (effect : Effect s c answer after) (calm : s.Calm) (spares : c.Spares t)
    (few : after.nextTicket ≤ UInt32.size) (tied : Tied past s t) :
    Tied (past ++ [(c, answer)]) after t where
  rooted b deferred := by
    rcases History.deferredOn_concat.mp deferred with old | ⟨issued, defers⟩
    · obtain ⟨lt, rooted⟩ := tied.rooted b old
      refine ⟨Nat.lt_of_lt_of_le lt effect.nextTicket_le, fun k mem inside => ?_⟩
      rcases effect.held spares few mem inside with ⟨g, memg, ing, within⟩ | ⟨issued, _⟩
      · exact within _ (rooted g memg ing)
      · exact absurd (effect.issued_eq issued).1 (Nat.ne_of_lt lt)
    · obtain ⟨new, next, _⟩ := effect.issued_eq issued
      refine ⟨by rw [next]; exact Nat.lt_succ_self t, fun k mem inside => ?_⟩
      rcases effect.held spares few mem inside with
        ⟨g, memg, ing, _⟩ | ⟨_, root, defers', here⟩
      · exact absurd ing ((tied.unissued (Nat.le_of_eq new.symm)).1 g memg)
      · rw [defers] at defers'
        cases defers'
        exact here
  unissued later := by
    have later' := Nat.le_trans effect.nextTicket_le later
    obtain ⟨free, notWaiting, notSettled⟩ := tied.unissued later'
    have unissued : answer.issued? ≠ some t := by
      intro issued
      have next := (effect.issued_eq issued).2.1
      omega
    refine ⟨fun k mem inside => ?_, ?_⟩
    · rcases effect.held spares few mem inside with ⟨g, memg, ing, _⟩ | ⟨issued, _⟩
      · exact free g memg ing
      · exact unissued issued
    · rcases effect.leaves calm t with same | ⟨v, _, holds⟩ | ⟨_, _, _, done⟩ | issued
      · exact ⟨same.pending.trans notWaiting, same.settled.trans notSettled⟩
      · obtain ⟨g, found, inside⟩ := groupOf?_of_holds calm holds
        exact absurd inside (free g (Groups.groupOf?_spec found).1)
      · exact absurd notSettled done
      · exact absurd issued unissued

theorem Reached.tied (reached : Reached setup past s) (spared : ∀ e ∈ past, e.1.Spares t)
    (few : s.nextTicket ≤ UInt32.size) : Tied past s t := by
  refine reached.induct (motive := fun past s => (∀ e ∈ past, e.1.Spares t) →
    s.nextTicket ≤ UInt32.size → Tied past s t) ?_ ?_ spared few
  · intro first started _ _
    obtain ⟨plan, o, _, _, rfl⟩ := start_eq_ok started
    exact ⟨fun b ⟨e, no, _⟩ => (by cases no), fun _ => ⟨fun g no => (by cases no), rfl, rfl⟩⟩
  · intro past s c reached ih spared few
    have effect := perform_effect reached.calm c
    exact effect.tied reached.calm (spared (c, (s.perform c).1) (by simp)) few
      (ih (fun e mem => spared e (List.mem_append_left _ mem))
        (Nat.le_trans effect.nextTicket_le few))

theorem mem_calls (s : Session) (calls : List Call) : ∀ e ∈ (s.run calls).1, e.1 ∈ calls := by
  induction calls generalizing s with
  | nil => exact fun e no => by cases no
  | cons c rest ih =>
    intro e mem
    rcases List.mem_cons.mp mem with rfl | mem
    · exact List.mem_cons_self
    · exact List.mem_cons_of_mem c (ih _ e mem)

theorem untouched_run (reached : Reached setup past s) (spared : ∀ e ∈ past, e.1.Spares t)
    {b : LazyValue} (deferred : past.DeferredOn t b) (more : List Call)
    (spared' : ∀ c ∈ more, c.Spares t) (few : (s.run more).2.nextTicket ≤ UInt32.size)
    (kept : ∀ ticket : MemberTicket, .redeem ticket ∈ more → ticket.ticket ≠ t)
    (apart : ∀ front c back v, more = front ++ c :: back → c.castsLazily? = some v →
      (s.run front).2.arena.sameLedger v.ledger b.ledger = false) :
    Untouched t s (s.run more).2 := by
  induction more generalizing past s with
  | nil => exact .refl t s
  | cons c rest ih =>
    have calm := reached.calm
    have effect := perform_effect calm c
    have next := reached.next c
    have few' := Nat.le_trans (nextTicket_le_run next.calm rest) few
    have tied := reached.tied spared (Nat.le_trans effect.nextTicket_le few')
    have step : Untouched t s (s.perform c).2 := by
      rcases effect.leaves calm t with same | ⟨v, consumes, holds⟩ | ⟨ticket, rfl, same, _⟩ | issued
      · exact same
      · have other := apart [] c rest v rfl consumes.casts
        have shared := tied.shared calm deferred holds
        rw [run, shared] at other
        cases other
      · exact absurd same (kept ticket List.mem_cons_self)
      · exact absurd (effect.issued_eq issued).1 (Nat.ne_of_lt (tied.rooted b deferred).1)
    refine step.trans (ih next (fun e mem => ?_) ?_
      (fun d mem => spared' d (List.mem_cons_of_mem c mem)) few
      (fun ticket mem => kept ticket (List.mem_cons_of_mem c mem))
      fun front d back v same => apart (c :: front) d back v (by rw [same]; rfl))
    · rcases List.mem_append.mp mem with old | new
      · exact spared e old
      · rw [List.mem_singleton.mp new]
        exact spared' c List.mem_cons_self
    · exact History.deferredOn_concat.mpr (Or.inl deferred)

theorem settled_until {first : Session} (started : setup.start = .ok first) (calls : List Call)
    (spared : ∀ c ∈ calls, c.Spares t) (few : (first.run calls).2.nextTicket ≤ UInt32.size)
    {b : LazyValue} (deferred : History.DeferredOn (first.run calls).1 t b)
    (done : (first.run calls).2.settled.find? t ≠ none) :
    ∃ front c back v, calls = front ++ c :: back ∧
      Consumes (first.run front).2 c ((first.run front).2.perform c).2 v ∧
      (first.run front).2.arena.sameLedger v.ledger b.ledger = true := by
  induction calls using List.reverseRecOn with
  | nil =>
    obtain ⟨plan, o, _, _, rfl⟩ := start_eq_ok started
    exact absurd rfl done
  | append_singleton calls c ih =>
    have reached := reached_run started calls
    have calm := reached.calm
    have effect := perform_effect calm c
    simp only [run_append, run] at few done deferred
    have few' := Nat.le_trans effect.nextTicket_le few
    have spared' : ∀ d ∈ calls, d.Spares t := fun d mem => spared d (List.mem_append_left _ mem)
    have tied := reached.tied (fun e mem => spared' e.1 (mem_calls first calls e mem)) few'
    rcases History.deferredOn_concat.mp deferred with old | ⟨issued, _⟩
    · have earlier : (first.run calls).2.settled.find? t ≠ none → _ :=
        ih spared' few' old
      rcases effect.leaves calm t with same | ⟨v, consumes, holds⟩ | ⟨_, _, _, done'⟩ | issued
      · obtain ⟨front, d, back, v, split, found⟩ := earlier (same.settled ▸ done)
        exact ⟨front, d, back ++ [c], v, by rw [split, List.append_assoc]; rfl, found⟩
      · exact ⟨calls, c, [], v, rfl, consumes, tied.shared calm old holds⟩
      · obtain ⟨front, d, back, v, split, found⟩ := earlier done'
        exact ⟨front, d, back ++ [c], v, by rw [split, List.append_assoc]; rfl, found⟩
      · exact absurd (effect.issued_eq issued).1 (Nat.ne_of_lt (tied.rooted b old).1)
    · -- A ticket just handed out was nowhere before.
      obtain ⟨new, _, settled⟩ := effect.issued_eq issued
      rw [settled] at done
      exact absurd (tied.unissued (Nat.le_of_eq new.symm)).2.2 done

/-- A ticket that no instruction written by hand reads as stands as it is, whatever is called, until
    a value that shares the ledger of its root is cast or the ticket is redeemed; and redeeming it
    gives nothing before such a cast has consumed the ledger. -/
theorem tickets_undisturbed {first : Session} (started : setup.start = .ok first)
    (calls : List Call) {b : LazyValue} (deferred : History.DeferredOn (first.run calls).1 t b)
    (spared : ∀ c ∈ calls, c.Spares t) (few : (first.run calls).2.nextTicket ≤ UInt32.size) :
    (∀ more, (∀ c ∈ more, c.Spares t) →
      ((first.run calls).2.run more).2.nextTicket ≤ UInt32.size →
      (∀ ticket : MemberTicket, .redeem ticket ∈ more → ticket.ticket ≠ t) →
      (∀ front c back v, more = front ++ c :: back → c.castsLazily? = some v →
        ((first.run calls).2.run front).2.arena.sameLedger v.ledger b.ledger = false) →
      Untouched t (first.run calls).2 ((first.run calls).2.run more).2) ∧
    ∀ ticket : MemberTicket, ticket.ticket = t →
      ((first.run calls).2.redeem ticket).1 ≠ none →
      ∃ front c back v, calls = front ++ c :: back ∧
        Consumes (first.run front).2 c ((first.run front).2.perform c).2 v ∧
        (first.run front).2.arena.sameLedger v.ledger b.ledger = true :=
  ⟨fun more spared' few' kept apart => untouched_run (reached_run started calls)
      (fun e mem => spared e.1 (mem_calls first calls e mem)) deferred more spared' few' kept apart,
    fun _ same some => settled_until started calls spared few deferred (same ▸ some)⟩

theorem nextTicket_run_le (calm : s.Calm) (more : List Call) :
    (s.run more).2.nextTicket ≤ s.nextTicket + more.length := by
  induction more generalizing s with
  | nil => exact Nat.le_refl _
  | cons c rest ih =>
    have effect := perform_effect calm c
    have step : (s.perform c).2.nextTicket ≤ s.nextTicket + 1 := by
      generalize (s.perform c).2 = after at effect
      cases effect with
      | grew extra grows => exact Nat.le_succ_of_le (Nat.le_of_eq grows.books.nextTicket)
      | deferred root defers g m b found groups tidy within issued unredeemed left => rw [left]
      | consumed v casts chain g b found groups tidy unissued unredeemed left =>
        rw [left, (sameOffice_conclude (s.withArena b) v chain (g.measured v).frozen).nextTicket]
        exact Nat.le_succ _
      | dropped v call said g found tidy groups books =>
        exact Nat.le_succ_of_le (Nat.le_of_eq books.nextTicket)
      | swept call ds said tidy groups books =>
        exact Nat.le_succ_of_le (Nat.le_of_eq books.nextTicket)
      | redeemed t call said left =>
        rw [left]
        exact Nat.le_succ _
    have tail : (s.run (c :: rest)).2.nextTicket ≤ (s.perform c).2.nextTicket + rest.length :=
      ih (effect.calm calm)
    rw [List.length_cons]
    omega

def pairAndBit : List Call := firstPairCalls ++ [.lazyValue "@bool"]

def bitCasts : List Call :=
  [.apply secondBit .quantum "x" [.qubit 2], .cast (.deferred secondBit) "u64"]

theorem pairAndBit_undisturbed : ∃ first, (SessionSetup.ofRegistry .builtin).start = .ok first ∧
    History.DeferredOn (first.run pairAndBit).1 0 firstPair ∧
    (∀ c ∈ pairAndBit ++ bitCasts, c.Spares 0) ∧
    Untouched 0 (first.run pairAndBit).2 ((first.run pairAndBit).2.run bitCasts).2 := by
  obtain ⟨first, started, deferred, next, other⟩ : ∃ first,
      (SessionSetup.ofRegistry .builtin).start = .ok first ∧
      History.DeferredOn (first.run pairAndBit).1 0 firstPair ∧
      (first.run pairAndBit).2.nextTicket = 1 ∧
      ((first.run pairAndBit).2.run [.apply secondBit .quantum "x" [.qubit 2]]).2.arena.sameLedger
        secondBit.ledger firstPair.ledger = false :=
    ⟨_, rfl, ⟨_, .tail _ (.tail _ (.head _)), rfl, rfl⟩, by decide, by decide⟩
  have spared : ∀ c ∈ pairAndBit ++ bitCasts, c.Spares 0 := by
    intro c mem
    simp only [pairAndBit, firstPairCalls, bitCasts, List.cons_append, List.nil_append,
      List.mem_cons, List.not_mem_nil, or_false] at mem
    rcases mem with rfl | rfl | rfl | rfl | rfl | rfl <;> simp [Call.Spares, ticketOf?]
  have few : ((first.run pairAndBit).2.run bitCasts).2.nextTicket ≤ UInt32.size := by
    have bound := nextTicket_run_le (reached_run started pairAndBit).calm bitCasts
    rw [next] at bound
    exact Nat.le_trans bound (by decide)
  have undisturbed := (tickets_undisturbed started pairAndBit deferred
    (fun c mem => spared c (List.mem_append_left _ mem)) (by rw [next]; decide)).1 bitCasts
    (fun c mem => spared c (List.mem_append_right _ mem)) few
  refine ⟨first, started, deferred, spared, undisturbed (fun ticket mem => ?_) ?_⟩
  · simp [bitCasts] at mem
  · intro front c back v split casts
    cases front with
    | nil =>
      cases split
      cases casts
    | cons _ front =>
      cases front with
      | nil =>
        cases split
        cases casts
        exact other
      | cons => simp [bitCasts] at split

def forgingCalls : List Call :=
  pairAndBit ++ [.apply secondBit .classical "cast" [.int 0]]

theorem forged_runs : ∃ past s g, Reached (.ofRegistry oneShot) past s ∧
    past.DeferredOn 0 firstPair ∧
    s.arena.sameLedger secondBit.ledger firstPair.ledger = false ∧
    s.compileCast secondBit.type "u64" =
      .ok (.convert "@bool" "u64" ⟨"@bool", [("u64", CastTable.convertTo "u64")]⟩) ∧
    s.pending.find? 0 = some ⟨⟨"@bool", [("u64", CastTable.convertTo "u64")]⟩, [0]⟩ ∧
    s.settled.find? 0 = none ∧ s.interpreter = .builtin ∧
    s.arena.groups.open? secondBit.ledger = some g ∧ 0 ∈ g.tickets ∧
    measuredIn (s.orchestrator.run (g.measured secondBit).frozen).1 =
      some (⟨[("0", 1)]⟩, [2], [⟨0, []⟩]) := by
  obtain ⟨first, started⟩ : ∃ first, (SessionSetup.ofRegistry oneShot).start = .ok first := ⟨_, rfl⟩
  have reached := reached_run started forgingCalls
  cases started
  refine ⟨_, _, _, reached, ⟨_, .tail _ (.tail _ (.head _)), rfl, rfl⟩, by decide, rfl, rfl, rfl,
    rfl, rfl, by decide, ?_⟩
  rw [Orchestrator.run_of_ordered
    ⟨.quantum, [⟨0, "cast", .classical, .classical, .native⟩,
      ⟨1, "measure", .quantum, .quantum, .native⟩]⟩
    [⟨.classical, [.plain 0 "cast" [.int 0]]⟩, ⟨.quantum, [.plain 1 "measure" [.qubit 2]]⟩]
    (by decide) (by rfl) (by rfl) (by decide)]
  decide +kernel

/-- Casting the bit takes the pair's ticket along: it can be redeemed, and the pair was not cast. -/
theorem forged_cast_settles : ¬ ∀ setup past s t a b target ticket, Reached setup past s →
    past.DeferredOn t b → s.arena.sameLedger a.ledger b.ledger = false →
    ticket.ticket = t →
      ((s.cast (.deferred a) target).2.redeem ticket).1 = (s.redeem ticket).1 := by
  intro undisturbed
  obtain ⟨past, s, g, reached, deferred, apart, compiled, waits, unsettled, builtin, found, inside,
    measured⟩ := forged_runs
  obtain ⟨m, ran, counts, qubits⟩ := measuredIn_eq_some measured
  obtain ⟨b, tidy, groups, concluded⟩ := castLazy_open reached.calm.tidy found
    ⟨"@bool", [("u64", CastTable.convertTo "u64")]⟩
  have tickets : memberTickets (g.measured secondBit).frozen = g.tickets :=
    measured_tickets g secondBit
  have ran' : (s.withArena b).orchestrator.run (g.measured secondBit).frozen =
      (.ok ⟨.measured m, [⟨0, []⟩]⟩, _) := Prod.ext ran rfl
  have same := undisturbed _ past s 0 secondBit firstPair "u64" ⟨0, 0, "low", "u64"⟩ reached
    deferred apart rfl
  rw [redeem, redeem, unsettled, cast_convert compiled, concluded,
    settled_conclude_of_ran ran' secondBit _ (tickets ▸ inside) waits] at same
  cases same

end Session
end LazyCast
