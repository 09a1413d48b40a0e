import LazyCast.Fault
/-!
Operations on a state that may fail and yet leave the state changed: an answer or a fault, beside
the state that is left.
-/
namespace LazyCast

abbrev Outcome (σ α : Type) := Except Fault α × σ

namespace Outcome
variable {σ τ α β : Type}

/-- Goes on from the state left, unless there was a fault. -/
def andThen (r : Outcome σ α) (next : α → σ → Outcome σ β) : Outcome σ β :=
  match r with
  | (.ok a, s) => next a s
  | (.error e, s) => (.error e, s)

def map (f : α → β) (r : Outcome σ α) : Outcome σ β := (r.1.map f, r.2)

/-- The same answer, the state seen as part of a larger one. -/
def within (f : σ → τ) (r : Outcome σ α) : Outcome τ α := (r.1, f r.2)

theorem andThen_ok (a : α) (s : σ) (next : α → σ → Outcome σ β) :
    andThen (.ok a, s) next = next a s := rfl

theorem andThen_error (e : Fault) (s : σ) (next : α → σ → Outcome σ β) :
    andThen (.error e, s) next = (.error e, s) := rfl

theorem andThen_assoc {γ : Type} (r : Outcome σ α) (f : α → σ → Outcome σ β)
    (g : β → σ → Outcome σ γ) :
    (r.andThen f).andThen g = r.andThen fun a s => (f a s).andThen g := by
  obtain ⟨answer, s⟩ := r
  cases answer <;> rfl

end Outcome
end LazyCast
