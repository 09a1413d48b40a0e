import Mathlib.Data.List.Forall2
import LazyCast.Proofs.Orchestrator.Readiness
import LazyCast.Proofs.Orchestrator.Routed
/-!
What lowers the batches of a kind. The evaluator lowers in process, any other kind through its
worker; which requests came before makes no difference, so a ready orchestrator lowers batches one
after the other as it lowers each alone.
-/
namespace LazyCast

def Staff.Sole (staff : Staff) : Prop := ∀ {kind c c'}, staff kind c → staff kind c' → c = c'

namespace Orchestrator
variable {staff : Staff} {o : Orchestrator} {kind : Kind}

inductive Lowers (staff : Staff) (o : Orchestrator) (kind : Kind) :
    (List Instruction → Except Fault Program) → Prop where
  | evaluator (classical : kind.isClassical = true) : Lowers staff o kind o.classical.lower
  | worker (needed : kind.isClassical = false) (covered : o.workers.contains kind = true)
      {c : SubCompiler} (belongs : staff kind c) : Lowers staff o kind c.lower

theorem Lowers.continues {p : Orchestrator} (same : Continues o p)
    {f : List Instruction → Except Fault Program} : Lowers staff p kind f ↔ Lowers staff o kind f := by
  constructor
  · rintro (classical | ⟨needed, covered, belongs⟩)
    · exact same.1.classical ▸ .evaluator classical
    · exact .worker needed ((same.2 _).symm.trans covered) belongs
  · rintro (classical | ⟨needed, covered, belongs⟩)
    · exact same.1.classical ▸ .evaluator classical
    · exact .worker needed ((same.2 _).trans covered) belongs

theorem Ready.lower_eq (ready : o.Ready staff) (sole : staff.Sole)
    {f : List Instruction → Except Fault Program} (lowers : Lowers staff o kind f)
    (batch : List Instruction) : (o.lower kind batch).1 = f batch := by
  unfold Orchestrator.lower
  cases lowers with
  | evaluator classical => rw [if_pos classical]
  | @worker needed covered c belongs =>
    rw [needed, if_neg Bool.false_ne_true]
    obtain ⟨w, found⟩ := Option.isSome_iff_exists.mp covered
    have fit := ready kind w found
    rw [call_eq found, sole belongs fit.belongs]
    simp only [Worker.serve, fit.alive, if_true]
    cases w.compiler.lower batch <;> rfl

theorem Ready.lowers_of_ok (ready : o.Ready staff) {batch : List Instruction} {p : Program}
    (lowered : (o.lower kind batch).1 = .ok p) : ∃ f, Lowers staff o kind f := by
  cases needed : kind.isClassical with
  | true => exact ⟨_, .evaluator needed⟩
  | false =>
    unfold Orchestrator.lower at lowered
    rw [needed, if_neg Bool.false_ne_true] at lowered
    cases found : o.workers.find? kind with
    | none =>
      simp only [Orchestrator.call, found, Outcome.andThen] at lowered
      cases lowered
    | some w => exact ⟨_, .worker needed (by simp [Table.contains, found]) (ready kind w found).belongs⟩

theorem Ready.lower_ok_iff (ready : o.Ready staff) (sole : staff.Sole) {batch : List Instruction}
    {p : Program} :
    (o.lower kind batch).1 = .ok p ↔ ∃ f, Lowers staff o kind f ∧ f batch = .ok p := by
  constructor
  · intro lowered
    obtain ⟨f, lowers⟩ := ready.lowers_of_ok lowered
    exact ⟨f, lowers, (ready.lower_eq sole lowers batch).symm.trans lowered⟩
  · rintro ⟨f, lowers, lowered⟩
    exact (ready.lower_eq sole lowers batch).trans lowered

theorem Ready.lowerAll_ok_iff (ready : o.Ready staff) (sole : staff.Sole)
    {batches : List (Kind × List Instruction)} {programs : List Program} :
    (o.lowerAll batches).1 = .ok programs ↔
      List.Forall₂ (fun batch p => (o.lower batch.1 batch.2).1 = .ok p) batches programs := by
  induction batches generalizing o programs with
  | nil =>
    constructor
    · intro ok
      cases ok
      exact .nil
    · rintro ⟨⟩
      rfl
  | cons batch rest ih =>
    have kept := ready.lower batch.1 batch.2
    have same := continues_lower o batch.1 batch.2
    unfold Orchestrator.lowerAll
    rw [List.forall₂_cons_left_iff]
    rcases answer : o.lower batch.1 batch.2 with ⟨e | p, left⟩ <;> rw [answer] at kept same
    · refine ⟨fun no => (by cases no), ?_⟩
      rintro ⟨p, ps, no, _⟩
      cases no
    · have kept := kept fun k no => by cases no
      -- What one batch leaves behind lowers all others alike.
      have agree : ∀ (b : Kind × List Instruction) p, (left.lower b.1 b.2).1 = .ok p ↔ (o.lower b.1 b.2).1 = .ok p := by
        intro b p
        rw [kept.lower_ok_iff sole, ready.lower_ok_iff sole]
        exact exists_congr fun f => and_congr_left fun _ => Lowers.continues same
      have later : ∀ ps, (left.lowerAll rest).1 = .ok ps ↔
          List.Forall₂ (fun b p => (o.lower b.1 b.2).1 = .ok p) rest ps := fun ps => by
        rw [ih kept]
        exact ⟨fun all => all.imp fun b p => (agree b p).mp,
          fun all => all.imp fun b p => (agree b p).mpr⟩
      simp only [Outcome.andThen_ok, Outcome.map]
      constructor
      · intro ok
        obtain ⟨ps, others, made⟩ := Except.map_eq_ok.mp ok
        exact ⟨p, ps, rfl, (later ps).mp others, made.symm⟩
      · rintro ⟨p', ps, first, others, rfl⟩
        cases first
        rw [(later ps).mpr others]
        rfl

end Orchestrator
end LazyCast
