import LazyCast.Proofs.Session.CastFaults
/-!
A cast is all or nothing. Whatever it is answered with, the session is as it was, or the whole group
of the value has gone from open to resolved and every other handle leads to what it led to before.
-/
namespace LazyCast

namespace Arena
variable {a b : Arena} {g : Group} {k : Handle}

theorem Tidy.sameLedger_of_open (t : a.Tidy) (found : a.groups.open? k = some g) (h : Handle) :
    a.sameLedger h k = ((a.groups.groupOf? h).map fun l => decide (l.lead = g.lead)).getD false := by
  obtain ⟨mem, inside, _⟩ := Groups.open?_spec found
  rw [sameLedger_matches t, Groups.sameGroup, t.apart.groupOf?_of_mem mem inside]
  cases a.groups.groupOf? h <;> rfl

variable (t : a.Tidy) (dissolved : b.groups = a.groups.dissolve g)
  (found : a.groups.open? k = some g)
include t dissolved found

theorem groupOf?_of_dissolved {h : Handle} (other : a.sameLedger h k = false) :
    b.groups.groupOf? h = a.groups.groupOf? h := by
  rw [t.sameLedger_of_open found] at other
  rw [dissolved, t.apart.groupOf?_dissolve]
  cases group : a.groups.groupOf? h with
  | none => rfl
  | some l =>
    rw [group, Option.map_some, Option.getD_some, decide_eq_false_iff_not] at other
    exact Option.filter_some_pos (by simpa using other)

variable (t' : b.Tidy)
include t'

theorem state_of_dissolved {h : Handle} (same : a.sameLedger h k = true) :
    b.state h = .resolved := by
  rw [t.sameLedger_of_open found] at same
  rw [state_matches t', Groups.state, dissolved, t.apart.groupOf?_dissolve]
  cases group : a.groups.groupOf? h with
  | none => rfl
  | some l =>
    rw [group, Option.map_some, Option.getD_some, decide_eq_true_eq] at same
    rw [Option.filter_some_neg (by simpa using same)]

theorem observed_of_dissolved {h : Handle} (other : a.sameLedger h k = false) :
    b.state h = a.state h ∧ (b.find? h).map Ledger.view = (a.find? h).map Ledger.view ∧
      ∀ l, a.sameLedger l k = false → b.sameLedger h l = a.sameLedger h l := by
  have same := groupOf?_of_dissolved t dissolved found other
  refine ⟨?_, ?_, fun l other' => ?_⟩
  · rw [state_matches t', state_matches t, Groups.state, Groups.state, same]
  · rw [find?_matches t', find?_matches t, Groups.open?, Groups.open?, same]
  · rw [sameLedger_matches t', sameLedger_matches t, Groups.sameGroup, Groups.sameGroup, same,
      groupOf?_of_dissolved t dissolved found other']

end Arena

namespace Session
variable {setup : SessionSetup} {past : History} {s after : Session} {v : LazyValue}

/-- The ledger of `v` was open and is resolved for all its handles; every other handle, and what is
    not about ledgers, workers or member casts, is as it was. -/
structure Consumed (s after : Session) (v : LazyValue) : Prop where
  opened : (s.state v).isOpen = true
  resolved : ∀ h, s.arena.sameLedger h v.ledger = true → after.arena.state h = .resolved
  others : ∀ h, s.arena.sameLedger h v.ledger = false →
    after.arena.state h = s.arena.state h ∧
      (after.arena.find? h).map Ledger.view = (s.arena.find? h).map Ledger.view ∧
      ∀ k, s.arena.sameLedger k v.ledger = false →
        after.arena.sameLedger h k = s.arena.sameLedger h k
  types : after.types = s.types
  allocator : after.allocator = s.allocator
  nextTicket : after.nextTicket = s.nextTicket
  diagnostics : after.diagnostics = s.diagnostics

theorem consumed_conclude (calm : s.Calm) {g : Group} {b : Arena}
    (found : s.arena.groups.open? v.ledger = some g) (tidy : b.Tidy)
    (dissolved : b.groups = s.arena.groups.dissolve g) (chain : CastChain) (l : FrozenLedger) :
    Consumed s ((s.withArena b).conclude v chain l).2 v := by
  have same := sameOffice_conclude (s.withArena b) v chain l
  have arena : ((s.withArena b).conclude v chain l).2.arena = b := same.arena
  refine ⟨?_, fun h inside => ?_, fun h other => ?_, same.types, same.allocator, same.nextTicket,
    same.diagnostics⟩
  · rw [state, calm.tidy.state_of_open found]
    exact (Groups.open?_spec found).2.2
  · rw [arena]
    exact Arena.state_of_dissolved calm.tidy dissolved found tidy inside
  · rw [arena]
    exact Arena.observed_of_dissolved calm.tidy dissolved found tidy other

theorem cast_convert {v : LazyValue} {target : TypeName} {chain : CastChain}
    (compiled : s.compileCast v.type target = .ok (.convert v.type target chain)) :
    s.cast (.deferred v) target = s.castLazy v chain := by
  unfold cast
  simp only [CastSource.isMember, CastSource.type, Bool.false_eq_true, if_false, compiled,
    CastPlan.isEncode, dispatchAs, dispatch, if_true]
  rcases s.castLazy v chain with ⟨e | w, left⟩ <;> rfl

theorem cast_deferred_cases (s : Session) (v : LazyValue) (target : TypeName) :
    (s.cast (.deferred v) target).2 = s ∧ (∀ w, (s.cast (.deferred v) target).1 ≠ .ok w) ∨
      ∃ chain, (∀ step ∈ chain.steps, s.casts.Lists step) ∧
        s.cast (.deferred v) target = s.castLazy v chain := by
  unfold cast
  simp only [CastSource.isMember, CastSource.type, Bool.false_eq_true, if_false]
  cases compiled : s.compileCast v.type target with
  | error e => exact Or.inl ⟨rfl, fun w no => by cases no⟩
  | ok plan =>
    cases plan with
    | encode from_ into kind width => exact Or.inl ⟨rfl, fun w no => by cases no⟩
    | convert from_ into chain =>
      simp only [CastPlan.isEncode, Bool.false_eq_true, if_false, dispatchAs, dispatch]
      split
      · refine Or.inr ⟨chain, CastTable.compile_lists (CastPlan.compile_convert compiled), ?_⟩
        rcases s.castLazy v chain with ⟨e | w, left⟩ <;> rfl
      · exact Or.inl ⟨rfl, fun w no => by cases no⟩

theorem cast_strict (s : Session) (v : Value) (target : TypeName) :
    (s.cast (.strict v) target).2 = s := by
  unfold cast
  simp only [CastSource.isMember, Bool.false_eq_true, if_false]
  split
  · rfl
  · rename_i plan _
    cases plan with
    | encode from_ into kind width => rfl
    | convert from_ into chain =>
      simp only [CastPlan.isEncode, Bool.false_eq_true, if_false, dispatchAs_left, dispatch]
      split <;> rfl

theorem castMember_failed (calm : s.Calm) {root : LazyValue} {name : String} {target : TypeName}
    {e : Fault} (failed : (s.castMember root name target).1 = .error e) :
    (s.castMember root name target).2 = s := by
  unfold castMember at failed ⊢
  split
  · rfl
  · rename_i m found
    rw [found] at failed
    dsimp only at failed
    split
    · rfl
    · rename_i plan compiled
      rw [compiled] at failed
      dsimp only at failed
      rw [dispatchAs_left]
      cases plan with
      | encode from_ into kind width => rfl
      | convert from_ into chain =>
        rw [dispatch]
        rcases deferMember_cases calm root name from_ into chain with
          ⟨e, refused⟩ | ⟨qubits, g, b, _, _, _, _, same⟩
        · rw [refused]
          rfl
        · rw [dispatchAs_answer, dispatch, same] at failed
          cases failed

theorem encode_failed (calm : s.Calm) {v : Value} {target : TypeName} {e : Fault}
    (failed : (s.encode v target).1 = .error e) : (s.encode v target).2 = s := by
  unfold encode at failed ⊢
  split
  · rfl
  · rename_i plan compiled
    rw [compiled] at failed
    dsimp only at failed
    rw [dispatchAs_left]
    rw [dispatchAs_answer] at failed
    cases plan with
    | convert from_ into chain =>
      rw [dispatch]
      split <;> rfl
    | encode from_ into kind width =>
      rw [dispatch] at failed ⊢
      rcases encodeValue_cases calm v into kind width with
        ⟨e, _, refused⟩ | ⟨literal, b, _, _, _, same⟩
      · rw [refused]
        rfl
      · rw [same] at failed
        cases failed

theorem Calm.not_triggered (calm : s.Calm) (h : Handle) : s.arena.state h ≠ .triggered := by
  rw [Arena.state_matches calm.tidy, Groups.state]
  cases found : s.arena.groups.groupOf? h with
  | none => simp
  | some g =>
    intro triggered
    have isOpen := calm.allOpen g (Groups.groupOf?_spec found).1
    simp only at triggered
    rw [triggered] at isOpen
    cases isOpen

/-- A cast of a lazy value leaves the session as it was or consumes the value's ledger; the latter
    whenever it succeeds, the former whenever it is refused as a cast. A member cast or an encoding
    that fails, and every cast of a strict value, leave the session as it was. -/
theorem casts_all_or_nothing (reached : Reached setup past s) :
    (∀ v target,
      ((s.cast (.deferred v) target).2 = s ∨ Consumed s (s.cast (.deferred v) target).2 v) ∧
      ((∃ w, (s.cast (.deferred v) target).1 = .ok w) →
        Consumed s (s.cast (.deferred v) target).2 v) ∧
      (∀ h, (s.cast (.deferred v) target).2.arena.state h ≠ .triggered) ∧
      (setup.casts.AllBuiltin → setup.modules.Discreet → ∀ e,
        (s.cast (.deferred v) target).1 = .error e → e.isOfCast = true →
          (s.cast (.deferred v) target).2 = s)) ∧
    (∀ root name target e, (s.castMember root name target).1 = .error e →
      (s.castMember root name target).2 = s) ∧
    (∀ v target e, (s.encode v target).1 = .error e → (s.encode v target).2 = s) ∧
    ∀ v target, (s.cast (.strict v) target).2 = s := by
  have calm := reached.calm
  refine ⟨fun v target => ?_, fun _ _ _ _ failed => castMember_failed calm failed,
    fun _ _ _ failed => encode_failed calm failed, s.cast_strict⟩
  have calm' := (effect_cast calm (.deferred v) target).calm calm
  rcases s.cast_deferred_cases v target with ⟨same, failed⟩ | ⟨chain, listed, same⟩
  · exact ⟨Or.inl same, fun ⟨w, ok⟩ => absurd ok (failed w), calm'.not_triggered,
      fun _ _ _ _ _ => same⟩
  rcases castLazy_cases calm v chain with refused | ⟨g, b, found, groups, tidy, concluded⟩
  · rw [same, refused]
    refine ⟨Or.inl rfl, ?_, calm.not_triggered, fun _ _ _ _ _ => rfl⟩
    rintro ⟨w, no⟩
    cases no
  · have consumed := consumed_conclude calm found tidy groups chain (g.measured v).frozen
    rw [same, concluded] at calm' ⊢
    refine ⟨Or.inr consumed, fun _ => consumed, calm'.not_triggered,
      fun builtin discreet e failed ofCast => ?_⟩
    have applied : ∀ w, NoCastFault (chain.apply w) := by
      rw [← reached.tables.1] at builtin
      exact builtin.noCastFault_apply listed
    have workers := reached.sparing Fault.foreign_isOfCast discreet
    have other := noCastFault_conclude (s := s.withArena b) workers applied v
      (g.measured v).frozen e failed
    rw [other] at ofCast
    cases ofCast

def firstBit : LazyValue := ⟨0, "@bool", .quantum, ⟨0, 0⟩, [0]⟩

theorem firstBit_all_or_nothing : ∃ past s, Reached (.ofRegistry .builtin) past s ∧
    past.values = [firstBit] ∧
    ((s.cast (.deferred firstBit) "u64").2 = s ∨
      Consumed s (s.cast (.deferred firstBit) "u64").2 firstBit) ∧
    ∀ e, (s.cast (.deferred firstBit) "u64").1 = .error e → e.isOfCast = true →
      (s.cast (.deferred firstBit) "u64").2 = s := by
  obtain ⟨first, started, values⟩ : ∃ first, (SessionSetup.ofRegistry .builtin).start = .ok first ∧
      (first.run [.lazyValue "@bool"]).1.values = [firstBit] := ⟨_, rfl, by decide⟩
  have reached := reached_run started [.lazyValue "@bool"]
  obtain ⟨either, _, _, refused⟩ := (casts_all_or_nothing reached).1 firstBit "u64"
  exact ⟨_, _, reached, values, either,
    refused CastTable.allBuiltin_builtin ModuleTable.builtin_discreet⟩

end Session
end LazyCast
