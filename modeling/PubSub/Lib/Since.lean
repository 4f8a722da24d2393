import PubSub.Lib.Runs

/-! The past of a run: some step was an `A`, and every step since has been a `P`.
The rules are those of the last step, so an invariant may speak of the past with no
record of it in the state. -/

namespace PubSub.Lib

variable {σ ε : Type}

/-- A step of the run `h` from `s` to `t` was an `A`, and the later ones were `P`. -/
inductive Since (step A P : σ → ε → σ → Prop) (s : σ) : List ε → σ → Prop
  | now {h : List ε} {t u : σ} {e : ε} : Run step s h t → step t e u → A t e u →
      Since step A P s (h ++ [e]) u
  | later {h : List ε} {t u : σ} {e : ε} : Since step A P s h t → step t e u → P t e u →
      Since step A P s (h ++ [e]) u

namespace Since

variable {step A P : σ → ε → σ → Prop} {s t : σ} {h : List ε}

/-- The run before, the step, and the run of `P` steps after. -/
theorem split (hs : Since step A P s h t) : ∃ h₁ e h₂ s₁ s₂, h = h₁ ++ e :: h₂ ∧
    Run step s h₁ s₁ ∧ step s₁ e s₂ ∧ A s₁ e s₂ ∧
    Run (fun a f b => step a f b ∧ P a f b) s₂ h₂ t := by
  induction hs with
  | @now h s₁ s₂ e hr he hA => exact ⟨h, e, [], s₁, s₂, rfl, hr, he, hA, .nil⟩
  | @later h t u f _ hf hP ih =>
    obtain ⟨h₁, e, h₂, s₁, s₂, rfl, hr, he, hA, hr₂⟩ := ih
    refine ⟨h₁, e, h₂ ++ [f], s₁, s₂, ?_, hr, he, hA, hr₂.snoc ⟨hf, hP⟩⟩
    rw [List.append_assoc, List.cons_append]

end Since

end PubSub.Lib
