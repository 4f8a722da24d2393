import PubSub.Lib.Runs

/-! Two runs that show an observer the same inputs. Each label is hidden from the
observer or shows an input, and may give an output. If a relation between the two
states is kept by every hidden step of either side and by every pair of steps with
the same input, which give the same output, then the two runs give the same
outputs. The hidden steps may differ in number, kind and place. -/

namespace PubSub.Lib

variable {σ τ ε φ ι ω : Type}

/-- What a relation `R` between the states of two machines has to keep. Only inputs
as `P` says are spoken of. -/
structure Unwinding (R : σ → τ → Prop) (P : ι → Prop) (step : σ → ε → σ → Prop)
    (step' : τ → φ → τ → Prop) (input : ε → Option ι) (input' : φ → Option ι)
    (output : ε → Option ω) (output' : φ → Option ω) : Prop where
  left : ∀ s e s' t, R s t → step s e s' → input e = none → R s' t ∧ output e = none
  right : ∀ s t f t', R s t → step' t f t' → input' f = none → R s t' ∧ output' f = none
  both : ∀ s e s' t f t' i, R s t → P i → step s e s' → step' t f t' → input e = some i →
    input' f = some i → R s' t' ∧ output e = output' f

namespace Unwinding
variable {R : σ → τ → Prop} {P : ι → Prop} {step : σ → ε → σ → Prop} {step' : τ → φ → τ → Prop}
  {input : ε → Option ι} {input' : φ → Option ι} {output : ε → Option ω}
  {output' : φ → Option ω} {s s' : σ} {t t' : τ} {h : List ε} {k : List φ}

theorem filterMap_snoc_none {α β : Type} {f : α → Option β} {l : List α} {a : α} (ha : f a = none) :
    (l ++ [a]).filterMap f = l.filterMap f := by
  rw [List.filterMap_append, List.filterMap_cons_none ha, List.filterMap_nil, List.append_nil]

theorem filterMap_snoc_some {α β : Type} {f : α → Option β} {l : List α} {a : α} {b : β}
    (ha : f a = some b) : (l ++ [a]).filterMap f = l.filterMap f ++ [b] := by
  rw [List.filterMap_append, List.filterMap_cons_some ha, List.filterMap_nil]

/-- Steps of the second side alone. -/
theorem run_right (hu : Unwinding R P step step' input input' output output') (hR : R s t)
    (hr : Run step' t k t') (hk : k.filterMap input' = []) :
    R s t' ∧ k.filterMap output' = [] := by
  induction hr with
  | nil => exact ⟨hR, rfl⟩
  | @snoc k t₁ t₂ f _ hs ih =>
    cases hf : input' f with
    | some i =>
      rw [filterMap_snoc_some hf] at hk
      simp at hk
    | none =>
      rw [filterMap_snoc_none hf] at hk
      obtain ⟨hR₁, hout⟩ := ih hk
      obtain ⟨hR₂, hnone⟩ := hu.right s t₁ f t₂ hR₁ hs hf
      exact ⟨hR₂, (filterMap_snoc_none hnone).trans hout⟩

/-- Runs with the same inputs end in related states and give the same outputs. -/
theorem run (hu : Unwinding R P step step' input input' output output') (hR : R s t)
    (hr : Run step s h s') (hr' : Run step' t k t') (hP : ∀ i ∈ h.filterMap input, P i)
    (hin : h.filterMap input = k.filterMap input') :
    R s' t' ∧ h.filterMap output = k.filterMap output' := by
  induction hr generalizing k t' with
  | nil =>
    obtain ⟨hR', hout⟩ := hu.run_right hR hr' hin.symm
    exact ⟨hR', hout.symm⟩
  | @snoc h s₁ s₂ e _ hs ih =>
    cases he : input e with
    | none =>
      rw [filterMap_snoc_none he] at hP hin
      obtain ⟨hR₁, hout⟩ := ih hr' hP hin
      obtain ⟨hR₂, hnone⟩ := hu.left s₁ e s₂ t' hR₁ hs he
      exact ⟨hR₂, (filterMap_snoc_none hnone).trans hout⟩
    | some i =>
      rw [filterMap_snoc_some he] at hP hin
      have hPi : P i := hP i (by simp)
      have hPh : ∀ j ∈ h.filterMap input, P j := fun j hj => hP j (List.mem_append_left _ hj)
      -- back to the step of the second run that shows `i`
      induction hr' with
      | nil => simp at hin
      | @snoc k t₁ t₂ f hr₁ hf ih' =>
        cases hfi : input' f with
        | none =>
          rw [filterMap_snoc_none hfi] at hin
          obtain ⟨hR₁, hout⟩ := ih' hin
          obtain ⟨hR₂, hnone⟩ := hu.right s₂ t₁ f t₂ hR₁ hf hfi
          exact ⟨hR₂, hout.trans (filterMap_snoc_none hnone).symm⟩
        | some j =>
          rw [filterMap_snoc_some hfi] at hin
          obtain ⟨hpre, hij⟩ := List.append_inj' hin rfl
          obtain rfl : i = j := List.singleton_inj.mp hij
          obtain ⟨hR₁, hout⟩ := ih hr₁ hPh hpre
          obtain ⟨hR₂, heq⟩ := hu.both s₁ e s₂ t₁ f t₂ i hR₁ hPi hs hf he hfi
          refine ⟨hR₂, ?_⟩
          rw [List.filterMap_append, List.filterMap_append, hout]
          congr 1
          simp only [List.filterMap_cons, List.filterMap_nil, heq]

end Unwinding

end PubSub.Lib
