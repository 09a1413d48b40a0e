import LazyCast.Proofs.Reversible.Office
import LazyCast.Proofs.Session.CastFaults
/-!
Sessions on the office of one simulator. Whatever calls came before, the workers of such a session
have not crashed and serve it as they did at the start, and every value that was handed out has
qubits of its own.
-/
namespace LazyCast

structure SessionSetup.Simulating (setup : SessionSetup) (passes : List String) (metadata : Json)
    (sim : Simulator) : Prop where
  made : Registry.ofDescriptors [.classical, .simulating passes metadata] = .ok setup.registry
  simulator : Simulator.ofDescriptor (.simulating passes metadata) = .ok sim
  modules : setup.modules = .builtin

section Planning
variable {setup : SessionSetup} {passes : List String} {metadata : Json} {sim : Simulator}

theorem SessionSetup.Simulating.plan_eq (simulating : setup.Simulating passes metadata sim)
    {plan : SpawnPlan} (planned : setup.plan = .ok plan) (running : plan.contains .quantum = true) :
    plan = ⟨[.classical, .quantum]⟩ := by
  have either : plan = ⟨[.classical]⟩ ∨ plan = ⟨[.classical, .quantum]⟩ := by
    unfold SessionSetup.plan at planned
    split at planned
    · obtain ⟨referenced, _, computed⟩ := Except.bind_eq_ok.mp planned
      exact SpawnPlan.compute_simulating simulating.made computed
    · cases planned
      exact Or.inr (Registry.kinds_simulating simulating.made)
  rcases either with rfl | rfl
  · cases running
  · rfl

end Planning

namespace Session
variable {setup : SessionSetup} {past : History} {s : Session}

/-- The built-in sub-compilers crash in no run, so calls only add runs to those of the start. -/
theorem Reached.reachable (reached : Reached setup past s) (modules : setup.modules = .builtin) :
    ∃ plan, setup.plan = .ok plan ∧
      Orchestrator.Reachable setup.registry .builtin plan setup.policy s.orchestrator := by
  refine reached.induct (motive := fun _ s => ∃ plan, setup.plan = .ok plan ∧
    Orchestrator.Reachable setup.registry .builtin plan setup.policy s.orchestrator) ?_ ?_
  · intro first started
    obtain ⟨plan, o, planned, running, rfl⟩ := start_eq_ok started
    exact ⟨plan, planned, .start (modules ▸ running)⟩
  · intro past s c reached ⟨plan, planned, reachable⟩
    refine ⟨plan, planned, ?_⟩
    rcases (perform_effect reached.calm c).orchestrator with same | ⟨l, same⟩
    · exact same ▸ reachable
    · have steady := reached.sparing Fault.foreign_isCrash
        (modules ▸ ModuleTable.builtin_sparing Fault.foreign_isCrash)
      rw [same]
      refine .run reachable l fun kind crashed => ?_
      cases (steady.run Fault.foreign_isCrash l).2 _ crashed

theorem Reached.bitOffice {passes : List String} {metadata : Json} {sim : Simulator}
    (simulating : setup.Simulating passes metadata sim) (reached : Reached setup past s)
    (running : s.plan.contains .quantum = true) :
    Orchestrator.BitOffice setup.registry sim s.orchestrator := by
  obtain ⟨plan, planned, reachable⟩ := reached.reachable simulating.modules
  obtain ⟨first, started, continues⟩ := reachable.continues
  obtain ⟨compilers, _, rfl⟩ := Orchestrator.start_eq started
  have same : s.plan = plan := continues.1.plan
  have both := simulating.plan_eq planned (same ▸ running)
  subst both
  exact Orchestrator.bitOffice_of_reachable simulating.made simulating.simulator reachable

theorem History.mem_values_concat {e : Call × Answer} {v : LazyValue}
    (mem : v ∈ History.values (past ++ [e])) : v ∈ past.values ∨ e.2.handedOut? = some v := by
  rw [History.values, List.filterMap_append] at mem
  refine (List.mem_append.mp mem).imp_right fun mem => ?_
  obtain ⟨f, at_f, made⟩ := List.mem_filterMap.mp mem
  rwa [List.mem_singleton.mp at_f] at made

theorem nodup_lazyValue {type : TypeName} {v : LazyValue} (made : (s.lazyValue type).1 = .ok v) :
    v.qubits.Nodup := by
  unfold lazyValue at made
  split at made
  · cases made
    exact List.nodup_range'
  · cases made

theorem nodup_encodeValue (calm : s.Calm) {x : Value} {target : TypeName} {kind : Kind}
    {width : Nat} {v : LazyValue} (made : (s.encodeValue x target kind width).1 = .ok v) :
    v.qubits.Nodup := by
  rcases encodeValue_cases calm x target kind width with
    ⟨e, _, refused⟩ | ⟨literal, b, _, _, _, same⟩
  · rw [refused] at made
    cases made
  · rw [same] at made
    cases made
    exact List.nodup_range'

theorem nodup_dispatch (calm : s.Calm) {plan : CastPlan} {source : CastSource} {v : LazyValue}
    (made : (s.dispatch plan source).1 = .ok (.encoded v)) : v.qubits.Nodup := by
  cases plan with
  | encode from_ into kind width =>
    cases source with
    | strict x =>
      obtain ⟨w, ok, same⟩ := Except.map_eq_ok.mp made
      cases same
      exact nodup_encodeValue calm ok
    | deferred w => cases made
    | member root name => cases made
  | convert from_ into chain =>
    cases source with
    | strict x =>
      simp only [dispatch] at made
      split at made
      · obtain ⟨w, _, no⟩ := Except.map_eq_ok.mp made
        cases no
      · cases made
    | deferred w =>
      simp only [dispatch] at made
      split at made
      · obtain ⟨w, _, no⟩ := Except.map_eq_ok.mp made
        cases no
      · cases made
    | member root name =>
      obtain ⟨w, _, no⟩ := Except.map_eq_ok.mp made
      cases no

theorem nodup_encode (calm : s.Calm) {x : Value} {target : TypeName} {v : LazyValue}
    (made : (s.encode x target).1 = .ok v) : v.qubits.Nodup := by
  unfold encode at made
  split at made
  · cases made
  · rename_i plan compiled
    rw [dispatchAs_answer] at made
    obtain ⟨outcome, dispatched, kept⟩ := Except.bind_eq_ok.mp made
    cases outcome with
    | encoded w =>
      cases kept
      exact nodup_dispatch calm dispatched
    | value w => cases kept
    | ticket t => cases kept

theorem Answer.lazyValue_handedOut {r : Except Fault LazyValue} {v : LazyValue}
    (made : (Answer.lazyValue r).handedOut? = some v) : r = .ok v := by
  cases r with
  | error e => cases made
  | ok w =>
    cases made
    rfl

theorem Answer.cast_handedOut {r : Except Fault CastOutcome} {v : LazyValue}
    (made : (Answer.cast r).handedOut? = some v) : r = .ok (.encoded v) := by
  match r with
  | .error _ => cases made
  | .ok (.encoded w) =>
    cases made
    rfl
  | .ok (.value _) => cases made
  | .ok (.ticket _) => cases made

theorem nodup_handedOut (calm : s.Calm) {c : Call} {v : LazyValue}
    (made : (s.perform c).1.handedOut? = some v) : v.qubits.Nodup := by
  cases c with
  | lazyValue type => exact nodup_lazyValue (Answer.lazyValue_handedOut made)
  | encode x target =>
    obtain ⟨w, ok, same⟩ := Except.map_eq_ok.mp (Answer.cast_handedOut made)
    cases same
    exact nodup_encode calm ok
  | dispatch plan source => exact nodup_dispatch calm (Answer.cast_handedOut made)
  | cast source target =>
    obtain ⟨w, _, no⟩ := Except.map_eq_ok.mp (Answer.cast_handedOut made)
    cases no
  | castMember root name target =>
    obtain ⟨w, _, no⟩ := Except.map_eq_ok.mp (Answer.cast_handedOut made)
    cases no
  | defineComposite name members => cases made
  | apply w kind opcode operands => cases made
  | interact how values independent => cases made
  | redeem t => cases made
  | dropValue w => cases made
  | finish => cases made

theorem Reached.nodup (reached : Reached setup past s) : ∀ v ∈ past.values, v.qubits.Nodup := by
  refine reached.induct (motive := fun past _ => ∀ v ∈ History.values past, v.qubits.Nodup) ?_ ?_
  · intro first started v mem
    cases mem
  · intro past s c reached ih v mem
    rcases History.mem_values_concat mem with old | new
    · exact ih v old
    · exact nodup_handedOut reached.calm new

end Session
end LazyCast
