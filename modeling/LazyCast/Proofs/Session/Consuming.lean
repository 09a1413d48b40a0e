import LazyCast.Proofs.Session.Calls
import LazyCast.Proofs.Session.Holding
/-!
What a lazy cast does. The ledger of a spent value is refused at the start. That of any other takes
the measurement, is triggered and released, and none of this can fail: what may still go wrong goes
wrong when the ledger runs or its sample is read, with the ledger gone and its member casts settled.
-/
namespace LazyCast

def Group.measured (g : Group) (v : LazyValue) : Group :=
  if v.qubits.isEmpty then g else g.push (Session.measurement v)

namespace Session
variable {s : Session} {v : LazyValue} {g : Group}

/-- Between calls the arena is in order and no ledger is frozen. -/
structure Calm (s : Session) : Prop where
  tidy : s.arena.Tidy
  allOpen : s.arena.groups.AllOpen

theorem measured_tickets (g : Group) (v : LazyValue) : (g.measured v).tickets = g.tickets := by
  unfold Group.measured
  split
  · rfl
  · have none : ticketOf? (measurement v) = none := by
      rw [ticketOf?, if_neg]
      simp [measurement]
    rw [Group.tickets_push, none, Option.toList_none, List.append_nil]

theorem append_spent (tidy : s.arena.Tidy) {h : Handle} (spent : s.arena.groups.open? h = none)
    (i : Instruction) : s.append h i = (.error (.frozenLedger h.index), s) := by
  rw [append, tidy.append_spent spent]
  rfl

theorem append_open (tidy : s.arena.Tidy) {h : Handle} (found : s.arena.groups.open? h = some g)
    (i : Instruction) : ∃ b, s.append h i = (.ok g.instructions.length, s.withArena b) ∧
      b.groups = s.arena.groups.put (g.push i) ∧ b.Tidy := by
  obtain ⟨b, appended, groups, tidy⟩ := tidy.append_open found i
  refine ⟨b, ?_, groups, tidy⟩
  rw [append, appended]
  rfl

theorem appendMeasurement_open (tidy : s.arena.Tidy)
    (found : s.arena.groups.open? v.ledger = some g) :
    ∃ b, s.appendMeasurement v = (.ok (), s.withArena b) ∧ b.Tidy ∧
      b.groups.open? v.ledger = some (g.measured v) ∧
      b.groups.dissolve (g.measured v) = s.arena.groups.dissolve g := by
  unfold appendMeasurement Group.measured
  by_cases none : v.qubits.isEmpty = true
  · simp only [none, if_true]
    exact ⟨s.arena, rfl, tidy, found, rfl⟩
  · obtain ⟨b, appended, groups, tidy'⟩ := append_open tidy found (measurement v)
    simp only [none, Bool.false_eq_true, if_false]
    refine ⟨b, ?_, tidy', ?_, ?_⟩
    · rw [appended]
      rfl
    · rw [groups]
      exact (groups ▸ tidy'.apart).open?_push found
    · rw [groups]
      exact Groups.dissolve_put s.arena.groups rfl

/-- What is left to do once the ledger is out of the arena: run it, settle its member casts, read
    its sample. -/
def conclude (s : Session) (v : LazyValue) (chain : CastChain) (l : FrozenLedger) :
    Outcome Session Value :=
  match s.orchestrator.run l with
  | (.error e, o) => (.error e, ({ s with orchestrator := o }).failMembers e (memberTickets l))
  | (.ok output, o) =>
    (s.readSample output.sample v.qubits chain,
      ({ s with orchestrator := o }).settleMembers output (memberTickets l))

structure SameOffice (s after : Session) : Prop where
  types : after.types = s.types
  casts : after.casts = s.casts
  interpreter : after.interpreter = s.interpreter
  orchestrator : after.orchestrator = s.orchestrator
  arena : after.arena = s.arena
  allocator : after.allocator = s.allocator
  nextTicket : after.nextTicket = s.nextTicket
  diagnostics : after.diagnostics = s.diagnostics

theorem SameOffice.refl (s : Session) : SameOffice s s := ⟨rfl, rfl, rfl, rfl, rfl, rfl, rfl, rfl⟩

theorem SameOffice.trans {after last : Session} (first : SameOffice s after)
    (second : SameOffice after last) : SameOffice s last :=
  ⟨second.types.trans first.types, second.casts.trans first.casts,
    second.interpreter.trans first.interpreter, second.orchestrator.trans first.orchestrator,
    second.arena.trans first.arena, second.allocator.trans first.allocator,
    second.nextTicket.trans first.nextTicket, second.diagnostics.trans first.diagnostics⟩

theorem sameOffice_failMembers (s : Session) (e : Fault) (tickets : List Nat) :
    SameOffice s (s.failMembers e tickets) := by
  unfold failMembers
  induction tickets generalizing s with
  | nil => exact .refl s
  | cons t rest ih =>
    have settled : SameOffice s (s.settle t (.error e)) := ⟨rfl, rfl, rfl, rfl, rfl, rfl, rfl, rfl⟩
    exact settled.trans (ih _)

theorem sameOffice_settleMembers (s : Session) (output : RunOutput) (tickets : List Nat) :
    SameOffice s (s.settleMembers output tickets) := by
  unfold settleMembers
  induction tickets generalizing s with
  | nil => exact .refl s
  | cons t rest ih =>
    rw [List.foldl_cons]
    refine SameOffice.trans ?_ (ih _)
    split
    · exact ⟨rfl, rfl, rfl, rfl, rfl, rfl, rfl, rfl⟩
    · exact .refl s

theorem sameOffice_conclude (s : Session) (v : LazyValue) (chain : CastChain) (l : FrozenLedger) :
    SameOffice { s with orchestrator := (s.orchestrator.run l).2 } (s.conclude v chain l).2 := by
  unfold conclude
  rcases s.orchestrator.run l with ⟨e | output, o⟩
  · exact sameOffice_failMembers _ e _
  · exact sameOffice_settleMembers _ output _

theorem castLazy_spent (tidy : s.arena.Tidy) (spent : s.arena.groups.open? v.ledger = none)
    (chain : CastChain) : s.castLazy v chain = (.error (.doubleCast v.ledger.index), s) := by
  rw [castLazy, if_pos]
  rw [tidy.isSpent_eq, spent]
  rfl

theorem castLazy_open (tidy : s.arena.Tidy) (found : s.arena.groups.open? v.ledger = some g)
    (chain : CastChain) :
    ∃ b, b.Tidy ∧ b.groups = s.arena.groups.dissolve g ∧
      s.castLazy v chain = (s.withArena b).conclude v chain (g.measured v).frozen := by
  obtain ⟨measured, appended, tidy', open', dissolved⟩ := appendMeasurement_open tidy found
  obtain ⟨b, triggered, groups, released⟩ := tidy'.trigger_release open'
  refine ⟨(b.release v.ledger).2, released, groups.trans dissolved, ?_⟩
  have isOpen : s.arena.isSpent v.ledger = false := by
    rw [tidy.isSpent_eq, found]
    rfl
  rw [castLazy, if_neg (by simp [isOpen]), appended, Outcome.andThen_ok]
  have frozen : (s.withArena measured).trigger v =
      (.ok (g.measured v).frozen, (s.withArena measured).withArena b) := by
    rw [trigger, withArena, triggered]
    rfl
  rw [frozen, Outcome.andThen_ok]
  unfold conclude runLedger
  simp only [withArena]
  rcases s.orchestrator.run (g.measured v).frozen with ⟨e | output, o⟩
  · rfl
  · simp only [readSample, (sameOffice_settleMembers _ output _).interpreter]

def frozenBy (s : Session) (v : LazyValue) : Except Fault FrozenLedger :=
  ((s.appendMeasurement v).andThen fun _ s => s.trigger v).1

theorem frozenBy_open (tidy : s.arena.Tidy) (found : s.arena.groups.open? v.ledger = some g) :
    s.frozenBy v = .ok (g.measured v).frozen := by
  obtain ⟨measured, appended, tidy', open', _⟩ := appendMeasurement_open tidy found
  obtain ⟨_, triggered, _, _⟩ := tidy'.trigger_release open'
  rw [frozenBy, appended, Outcome.andThen_ok, trigger, withArena, triggered]
  rfl

theorem frozenBy_eq_ok (tidy : s.arena.Tidy) {frozen : FrozenLedger}
    (ok : s.frozenBy v = .ok frozen) :
    ∃ g, s.arena.groups.open? v.ledger = some g ∧ frozen = (g.measured v).frozen := by
  cases found : s.arena.groups.open? v.ledger with
  | some g => exact ⟨g, rfl, Except.ok.inj (ok.symm.trans (frozenBy_open tidy found))⟩
  | none =>
    exfalso
    unfold frozenBy appendMeasurement at ok
    by_cases none : v.qubits.isEmpty = true
    · have spent := (Arena.trigger_matches tidy v.ledger).answer
      simp only [Groups.trigger, found] at spent
      rw [if_pos none, Outcome.andThen_ok, trigger] at ok
      change (s.arena.trigger v.ledger).1 = _ at ok
      cases spent.symm.trans ok
    · rw [if_neg none, append_spent tidy found] at ok
      cases ok

end Session
end LazyCast
