import LazyCast.Proofs.Orchestrator.Continuing
import LazyCast.Proofs.Session.Settling
/-!
The account of member tickets. Numbers are given out in order, so none is used twice; a ticket that
was given out waits, is settled or has been redeemed, and never two of these; and the member casts
recorded in ledgers are those of waiting tickets, each in one ledger.
-/
namespace LazyCast.Session
variable {setup : SessionSetup} {past : History} {s after : Session} {c : Call} {answer : Answer}

def Holds (s : Session) (v : LazyValue) (t : Nat) : Prop :=
  ∃ l, s.ledger? v = some l ∧ t ∈ l.instructions.filterMap ticketOf?

theorem holds_iff (tidy : s.arena.Tidy) {v : LazyValue} {t : Nat} :
    s.Holds v t ↔ ∃ g, s.arena.groups.open? v.ledger = some g ∧ t ∈ g.tickets := by
  have views := Arena.find?_matches tidy v.ledger
  unfold Holds ledger?
  cases found : s.arena.find? v.ledger with
  | none =>
    rw [found] at views
    cases group : s.arena.groups.open? v.ledger with
    | none => simp
    | some g =>
      rw [group] at views
      cases views
  | some l =>
    rw [found] at views
    cases group : s.arena.groups.open? v.ledger with
    | none =>
      rw [group] at views
      cases views
    | some g =>
      rw [group] at views
      have same : l.instructions = g.instructions :=
        congrArg LedgerView.instructions (Option.some.inj views)
      simp [Group.tickets, same]

def places (past : History) (s : Session) (t : Nat) : List Bool :=
  [s.pending.contains t, s.settled.contains t, decide (t ∈ past.redeemed)]

/-- Every ticket that was given out is in one place, and the others are nowhere. -/
def Placed (past : History) (s : Session) : Prop :=
  ∀ t, (places past s t).count true = if t < s.nextTicket then 1 else 0

structure Accounted (past : History) (s : Session) : Prop where
  issued : past.issued = List.range s.nextTicket
  placed : Placed past s
  redeemed_once : past.redeemed.Nodup
  ticketed : s.arena.groups.Ticketed
  held_waits : ∀ g ∈ s.arena.groups, ∀ t ∈ g.tickets, s.pending.contains t = true

theorem History.issued_concat (past : History) (e : Call × Answer) :
    History.issued (past ++ [e]) = past.issued ++ e.2.issued?.toList := by
  rw [issued, issued, List.filterMap_append, List.filterMap_cons, List.filterMap_nil]
  cases e.2.issued? <;> rfl

theorem History.redeemed_concat (past : History) (e : Call × Answer) :
    History.redeemed (past ++ [e]) = past.redeemed ++ (redeemed? e).toList := by
  rw [redeemed, redeemed, List.filterMap_append, List.filterMap_cons, List.filterMap_nil]
  cases redeemed? e <;> rfl

theorem ticketOf?_memberCast {t : Nat} (small : t < UInt32.size) (qubits : List Qubit) :
    ticketOf? (memberCastInstruction t qubits) = some t := by
  have small' : t < 4294967296 := small
  have exact : (Int64.ofNat t).toInt = t := Int64.toInt_ofNat_of_lt (by omega)
  have fits : uint32? (t : Int) = some (UInt32.ofNat t) := by
    rw [uint32?, if_pos ⟨by omega, by omega⟩, Int.toNat_natCast]
  simp only [ticketOf?, memberCastInstruction, if_true, exact, fits, Option.map_some]
  exact congrArg some (UInt32.toNat_ofNat_of_lt' small)

theorem count_places (a b c : Bool) : [a, b, c].count true = a.toNat + b.toNat + c.toNat := by
  cases a <;> cases b <;> cases c <;> rfl

theorem Placed.waiting (placed : Placed past s) {t : Nat} (waits : s.pending.contains t = true) :
    t < s.nextTicket ∧ s.settled.contains t = false ∧ t ∉ past.redeemed := by
  have once := placed t
  rw [places, count_places, waits] at once
  split at once
  · rename_i issued
    cases settled : s.settled.contains t <;> cases redeemed : decide (t ∈ past.redeemed) <;>
      simp_all
  · simp at once

theorem Placed.settled (placed : Placed past s) {t : Nat} (done : s.settled.contains t = true) :
    t < s.nextTicket ∧ s.pending.contains t = false ∧ t ∉ past.redeemed := by
  have once := placed t
  rw [places, count_places, done] at once
  split at once
  · rename_i issued
    cases waits : s.pending.contains t <;> cases redeemed : decide (t ∈ past.redeemed) <;>
      simp_all
  · simp at once

theorem Placed.unissued (placed : Placed past s) {t : Nat} (later : s.nextTicket ≤ t) :
    s.pending.contains t = false ∧ s.settled.contains t = false ∧ t ∉ past.redeemed := by
  have once := placed t
  rw [places, count_places, if_neg (Nat.not_lt.mpr later)] at once
  cases waits : s.pending.contains t <;> cases done : s.settled.contains t <;>
    cases redeemed : decide (t ∈ past.redeemed) <;> simp_all

theorem Placed.same (placed : Placed past s) (books : SameBooks s after)
    (unredeemed : History.redeemed? (c, answer) = none) : Placed (past ++ [(c, answer)]) after := by
  intro t
  have at_t := placed t
  rw [places] at at_t ⊢
  rw [books.pending, books.settled, books.nextTicket, History.redeemed_concat, unredeemed,
    Option.toList_none, List.append_nil]
  exact at_t

section Effects
variable (accounted : Accounted past s)
include accounted

theorem accounted_same (books : SameBooks s after) (unissued : answer.issued? = none)
    (unredeemed : History.redeemed? (c, answer) = none) (ticketed : after.arena.groups.Ticketed)
    (origin : ∀ k ∈ after.arena.groups, ∀ t ∈ k.tickets, ∃ g ∈ s.arena.groups, t ∈ g.tickets) :
    Accounted (past ++ [(c, answer)]) after where
  issued := by
    rw [History.issued_concat, unissued, Option.toList_none, List.append_nil, books.nextTicket]
    exact accounted.issued
  placed := accounted.placed.same books unredeemed
  redeemed_once := by
    rw [History.redeemed_concat, unredeemed, Option.toList_none, List.append_nil]
    exact accounted.redeemed_once
  ticketed := ticketed
  held_waits := by
    intro k mem t inside
    obtain ⟨g, memg, ing⟩ := origin k mem t inside
    rw [books.pending]
    exact accounted.held_waits g memg t ing

theorem accounted_deferred (calm : s.Calm) (small : s.nextTicket < UInt32.size) {root : LazyValue}
    {g : Group} {m : PendingMember} {b : Arena}
    (found : s.arena.groups.open? root.ledger = some g)
    (groups : b.groups =
      s.arena.groups.put (g.push (memberCastInstruction s.nextTicket m.qubits)))
    (issued : answer.issued? = some s.nextTicket)
    (unredeemed : History.redeemed? (c, answer) = none) :
    Accounted (past ++ [(c, answer)]) { s.withArena b with
      nextTicket := s.nextTicket + 1, pending := s.pending.insert s.nextTicket m } := by
  obtain ⟨notWaiting, notSettled, notRedeemed⟩ := accounted.placed.unissued (Nat.le_refl _)
  have carries := Groups.carries_push calm.tidy.apart (Groups.open?_spec found).1
    (memberCastInstruction s.nextTicket m.qubits)
  rw [ticketOf?_memberCast small, ← groups] at carries
  have waits : ∀ t, (s.pending.insert s.nextTicket m).contains t =
      (decide (t = s.nextTicket) || s.pending.contains t) :=
    fun t => Orchestrator.contains_insert s.pending s.nextTicket t m
  refine ⟨?_, fun t => ?_, ?_, ?_, fun k mem t inside => ?_⟩
  · rw [History.issued_concat, accounted.issued, issued, List.range_succ]
    rfl
  · have at_t := accounted.placed t
    rw [places, count_places] at at_t ⊢
    dsimp only [withArena]
    rw [waits, History.redeemed_concat, unredeemed, Option.toList_none, List.append_nil]
    by_cases new : t = s.nextTicket
    · subst new
      simp [notSettled, notRedeemed]
    · simp only [new, decide_false, Bool.false_or]
      rw [at_t]
      split <;> split <;> omega
  · rw [History.redeemed_concat, unredeemed, Option.toList_none, List.append_nil]
    exact accounted.redeemed_once
  · refine carries.ticketed accounted.ticketed (List.nodup_singleton _) fun t mem k memk inside => ?_
    rw [List.mem_singleton.mp mem] at inside
    rw [accounted.held_waits k memk _ inside] at notWaiting
    cases notWaiting
  · dsimp only [withArena]
    rw [waits]
    rcases carries.origin k mem t inside with new | ⟨l, meml, inl⟩
    · simp [List.mem_singleton.mp new]
    · simp [accounted.held_waits l meml t inl]

theorem accounted_consumed {v : LazyValue} {g : Group} {b : Arena}
    (chain : CastChain) (found : s.arena.groups.open? v.ledger = some g)
    (groups : b.groups = s.arena.groups.dissolve g) (unissued : answer.issued? = none)
    (unredeemed : History.redeemed? (c, answer) = none) :
    Accounted (past ++ [(c, answer)])
      ((s.withArena b).conclude v chain (g.measured v).frozen).2 := by
  have same := sameOffice_conclude (s.withArena b) v chain (g.measured v).frozen
  have tickets : memberTickets (g.measured v).frozen = g.tickets := measured_tickets g v
  have pending := pending_conclude (s.withArena b) v chain (g.measured v).frozen
  rw [tickets] at pending
  have arena : ((s.withArena b).conclude v chain (g.measured v).frozen).2.arena.groups =
      s.arena.groups.dissolve g := by
    rw [same.arena]
    exact groups
  have mem := (Groups.open?_spec found).1
  refine ⟨?_, fun t => ?_, ?_, ?_, fun k memk t inside => ?_⟩
  · rw [History.issued_concat, unissued, Option.toList_none, List.append_nil, same.nextTicket]
    exact accounted.issued
  · have at_t := accounted.placed t
    rw [places, count_places] at at_t ⊢
    rw [History.redeemed_concat, unredeemed, Option.toList_none, List.append_nil, same.nextTicket]
    change _ = if t < s.nextTicket then 1 else 0
    by_cases inside : t ∈ g.tickets
    · have waits := accounted.held_waits g mem t inside
      obtain ⟨_, unsettled, unredeemed⟩ := accounted.placed.waiting waits
      have settled := settled_conclude_of_mem (s := s.withArena b) v chain
        (l := (g.measured v).frozen) (tickets ▸ inside) waits
      rw [← at_t, waits, unsettled, settled, Table.contains, pending t, if_pos inside]
      simp [unredeemed]
    · have settled := settled_conclude_of_notMem (s.withArena b) v chain
        (l := (g.measured v).frozen) (tickets ▸ inside)
      have pending : _ = s.pending.find? t := (pending t).trans (if_neg inside)
      rw [Table.contains_eq pending, Table.contains_eq settled]
      exact at_t
  · rw [History.redeemed_concat, unredeemed, Option.toList_none, List.append_nil]
    exact accounted.redeemed_once
  · rw [arena]
    exact accounted.ticketed.dissolve g
  · rw [arena] at memk
    obtain ⟨memk, ne⟩ := Groups.mem_dissolve.mp memk
    have outside : t ∉ g.tickets := fun ing =>
      ne (congrArg Group.lead (accounted.ticketed.apart k memk g mem t inside ing))
    have pending : _ = s.pending.find? t := (pending t).trans (if_neg outside)
    rw [Table.contains_eq pending]
    exact accounted.held_waits k memk t inside

theorem accounted_redeemed (ticket : MemberTicket) :
    Accounted (past ++ [(.redeem ticket, .redeemed (s.settled.find? ticket.ticket))])
      { s with settled := s.settled.erase ticket.ticket } := by
  have elsewhere : ∀ t, t ≠ ticket.ticket →
      (s.settled.erase ticket.ticket).contains t = s.settled.contains t :=
    fun t ne => Table.contains_eq (Table.find?_erase_of_ne _ ne)
  have gone : (s.settled.erase ticket.ticket).contains ticket.ticket = false := by
    rw [Table.contains, Table.find?_erase_self]
    rfl
  have concat := History.redeemed_concat past
    (.redeem ticket, .redeemed (s.settled.find? ticket.ticket))
  have issued : History.issued (past ++
      [(.redeem ticket, .redeemed (s.settled.find? ticket.ticket))]) = past.issued := by
    rw [History.issued_concat]
    exact List.append_nil _
  cases found : s.settled.find? ticket.ticket with
  | none =>
    have unsettled : s.settled.contains ticket.ticket = false := by rw [Table.contains, found]; rfl
    rw [found] at concat issued
    have concat : _ = past.redeemed := concat.trans (List.append_nil _)
    refine ⟨issued.trans accounted.issued, fun t => ?_, ?_, accounted.ticketed,
      accounted.held_waits⟩
    · have at_t := accounted.placed t
      rw [places] at at_t ⊢
      rw [concat]
      by_cases here : t = ticket.ticket
      · subst here
        rw [unsettled] at at_t
        dsimp only
        rw [gone]
        exact at_t
      · dsimp only
        rw [elsewhere t here]
        exact at_t
    · rw [concat]
      exact accounted.redeemed_once
  | some r =>
    have settled : s.settled.contains ticket.ticket = true := by rw [Table.contains, found]; rfl
    obtain ⟨_, _, unredeemed⟩ := accounted.placed.settled settled
    rw [found] at concat issued
    have concat : _ = past.redeemed ++ [ticket.ticket] := concat
    refine ⟨issued.trans accounted.issued, fun t => ?_, ?_, accounted.ticketed,
      accounted.held_waits⟩
    · have at_t := accounted.placed t
      rw [places, count_places] at at_t ⊢
      rw [concat]
      by_cases here : t = ticket.ticket
      · subst here
        rw [settled] at at_t
        dsimp only
        rw [gone, ← at_t]
        simp [unredeemed]
      · dsimp only
        rw [elsewhere t here]
        simpa [here] using at_t
    · rw [concat]
      exact List.nodup_append.mpr ⟨accounted.redeemed_once, List.nodup_singleton _,
        fun t mem u new same => unredeemed (List.mem_singleton.mp new ▸ same ▸ mem)⟩

theorem accounted_effect (calm : s.Calm) (tame : c.WritesNoCast)
    (few : after.nextTicket ≤ UInt32.size) (effect : Effect s c answer after) :
    Accounted (past ++ [(c, answer)]) after := by
  cases effect with
  | grew extra grows only unissued unredeemed =>
    have carries := grows.carries
    rw [tame.extra_eq_nil only] at carries
    exact accounted_same accounted grows.books unissued unredeemed
      (carries.ticketed accounted.ticketed List.nodup_nil (by simp))
      fun k mem t inside => (carries.origin k mem t inside).resolve_left (by simp)
  | deferred root defers g m b found groups tidy within issued unredeemed left =>
    subst left
    exact accounted_deferred accounted calm few found groups issued unredeemed
  | consumed v casts chain g b found groups tidy unissued unredeemed left =>
    subst left
    exact accounted_consumed accounted chain found groups unissued unredeemed
  | dropped v call said g found tidy groups books =>
    subst call said
    refine accounted_same accounted books rfl rfl ?_ fun k mem t inside => ?_
    · rw [groups]
      exact accounted.ticketed.dissolve g
    · rw [groups] at mem
      exact ⟨k, (Groups.mem_dissolve.mp mem).1, inside⟩
  | swept call ds said tidy groups books =>
    subst call said
    refine accounted_same accounted books rfl rfl ?_ fun k mem t inside => ?_
    · rw [groups]
      exact ⟨fun g no => (by cases no), fun g no => (by cases no)⟩
    · rw [groups] at mem
      cases mem
  | redeemed ticket call said left =>
    subst call said left
    exact accounted_redeemed accounted ticket

end Effects

theorem Effect.nextTicket_le (effect : Effect s c answer after) :
    s.nextTicket ≤ after.nextTicket := by
  cases effect with
  | grew extra grows => exact Nat.le_of_eq grows.books.nextTicket.symm
  | deferred root defers g m b found groups tidy within issued unredeemed left =>
    rw [left]
    exact Nat.le_succ _
  | consumed v casts chain g b found groups tidy unissued unredeemed left =>
    rw [left]
    exact Nat.le_of_eq
      (sameOffice_conclude (s.withArena b) v chain (g.measured v).frozen).nextTicket.symm
  | dropped v call said g found tidy groups books => exact Nat.le_of_eq books.nextTicket.symm
  | swept call ds said tidy groups books => exact Nat.le_of_eq books.nextTicket.symm
  | redeemed t call said left => rw [left]

theorem Reached.accounted (reached : Reached setup past s) (tame : ∀ e ∈ past, e.1.WritesNoCast)
    (few : s.nextTicket ≤ UInt32.size) : Accounted past s := by
  refine reached.induct (motive := fun past s => (∀ e ∈ past, e.1.WritesNoCast) →
    s.nextTicket ≤ UInt32.size → Accounted past s) ?_ ?_ tame few
  · intro first started _ _
    obtain ⟨plan, o, _, _, rfl⟩ := start_eq_ok started
    exact ⟨rfl, fun t => rfl, List.nodup_nil,
      ⟨fun g no => (by cases no), fun g no => (by cases no)⟩, fun g no => (by cases no)⟩
  · intro past s c reached ih tame few
    have effect := perform_effect reached.calm c
    have accounted := ih (fun e mem => tame e (List.mem_append_left _ mem))
      (Nat.le_trans effect.nextTicket_le few)
    exact accounted_effect accounted reached.calm
      (tame (c, (s.perform c).1) (by simp)) few effect

end LazyCast.Session
