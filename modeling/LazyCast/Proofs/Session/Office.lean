import LazyCast.Proofs.Orchestrator.Continuing
import LazyCast.Proofs.Session.Effects
/-!
What no call changes: the cast functions, how samples are read, and the office of the orchestrator.
Workers change by running ledgers only.
-/
namespace LazyCast.Session
variable {setup : SessionSetup} {past : History} {s : Session}

theorem Effect.keeps_tables {c : Call} {answer : Answer} {after : Session}
    (effect : Effect s c answer after) :
    after.casts = s.casts ∧ after.interpreter = s.interpreter := by
  cases effect with
  | grew extra grows => exact ⟨grows.books.casts, grows.books.interpreter⟩
  | deferred root defers g m b found groups tidy within issued unredeemed left =>
    rw [left]
    exact ⟨rfl, rfl⟩
  | consumed v casts chain g b found groups tidy unissued unredeemed left =>
    have same := sameOffice_conclude (s.withArena b) v chain (g.measured v).frozen
    rw [left]
    exact ⟨same.casts, same.interpreter⟩
  | dropped v call said g found tidy groups books => exact ⟨books.casts, books.interpreter⟩
  | swept call ds said tidy groups books => exact ⟨books.casts, books.interpreter⟩
  | redeemed t call said left =>
    rw [left]
    exact ⟨rfl, rfl⟩

theorem Reached.tables (reached : Reached setup past s) :
    s.casts = setup.casts ∧ s.interpreter = setup.interpreter := by
  refine reached.induct (motive := fun _ s =>
    s.casts = setup.casts ∧ s.interpreter = setup.interpreter) ?_ ?_
  · intro first started
    obtain ⟨plan, o, _, _, rfl⟩ := start_eq_ok started
    exact ⟨rfl, rfl⟩
  · intro past s c reached ih
    obtain ⟨casts, interpreter⟩ := (perform_effect reached.calm c).keeps_tables
    exact ⟨casts.trans ih.1, interpreter.trans ih.2⟩

theorem Effect.orchestrator {c : Call} {answer : Answer} {after : Session}
    (effect : Effect s c answer after) : after.orchestrator = s.orchestrator ∨
      ∃ l, after.orchestrator = (s.orchestrator.run l).2 := by
  cases effect with
  | grew extra grows => exact Or.inl grows.books.orchestrator
  | deferred root defers g m b found groups tidy within issued unredeemed left =>
    rw [left]
    exact Or.inl rfl
  | consumed v casts chain g b found groups tidy unissued unredeemed left =>
    rw [left, (sameOffice_conclude (s.withArena b) v chain (g.measured v).frozen).orchestrator]
    exact Or.inr ⟨(g.measured v).frozen, rfl⟩
  | dropped v call said g found tidy groups books => exact Or.inl books.orchestrator
  | swept call ds said tidy groups books => exact Or.inl books.orchestrator
  | redeemed t call said left =>
    rw [left]
    exact Or.inl rfl

theorem Reached.office (reached : Reached setup past s) :
    ∃ plan first, setup.plan = .ok plan ∧
      Orchestrator.start setup.registry setup.modules plan setup.policy = .ok first ∧
      Orchestrator.Continues first s.orchestrator := by
  refine reached.induct (motive := fun _ s => ∃ plan first, setup.plan = .ok plan ∧
      Orchestrator.start setup.registry setup.modules plan setup.policy = .ok first ∧
      Orchestrator.Continues first s.orchestrator) ?_ ?_
  · intro first started
    obtain ⟨plan, o, planned, running, rfl⟩ := start_eq_ok started
    exact ⟨plan, o, planned, running, .refl o⟩
  · intro past s c reached ⟨plan, first, planned, running, continues⟩
    refine ⟨plan, first, planned, running, ?_⟩
    rcases (perform_effect reached.calm c).orchestrator with same | ⟨l, same⟩
    · exact same ▸ continues
    · rw [same]
      exact continues.trans (Orchestrator.continues_run _ l)

end LazyCast.Session
