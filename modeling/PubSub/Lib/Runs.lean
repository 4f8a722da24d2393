import Mathlib.Data.List.Basic

/-! Runs of a labelled step relation, oldest label first, and the rules by which
a fact about one step becomes a fact about every run. A rule may speak of the
labels so far, so a count or a record kept along the run needs no extra state. -/

namespace PubSub.Lib

variable {σ ε : Type}

/-- `Run step s h t`: the steps labelled `h` lead from `s` to `t`. -/
inductive Run (step : σ → ε → σ → Prop) (s : σ) : List ε → σ → Prop
  | nil : Run step s [] s
  | snoc {h : List ε} {t u : σ} {e : ε} : Run step s h t → step t e u → Run step s (h ++ [e]) u

namespace Run

variable {step : σ → ε → σ → Prop} {s t u : σ} {h k : List ε} {e : ε}

theorem single (hs : step s e t) : Run step s [e] t := Run.snoc (h := []) .nil hs

theorem eq_of_nil (hr : Run step s [] t) : t = s := by
  generalize hl : ([] : List ε) = l at hr
  cases hr with
  | nil => rfl
  | snoc => simp at hl

theorem of_single (hr : Run step s [e] t) : step s e t := by
  generalize hl : [e] = l at hr
  cases hr with
  | nil => cases hl
  | @snoc h t' _ e' hr hs =>
    obtain ⟨rfl, rfl⟩ : h = [] ∧ e' = e := by simpa using (List.append_eq_singleton_iff.mp hl.symm)
    rw [hr.eq_of_nil] at hs
    exact hs

theorem append (h₁ : Run step s h t) (h₂ : Run step t k u) : Run step s (h ++ k) u := by
  induction h₂ with
  | nil => simpa using h₁
  | snoc _ hs ih =>
    rw [← List.append_assoc]
    exact ih.snoc hs

theorem cons (hs : step s e t) (h₂ : Run step t h u) : Run step s (e :: h) u :=
  (single hs).append h₂

theorem of_cons (hr : Run step s (e :: h) u) : ∃ t, step s e t ∧ Run step t h u := by
  generalize hl : e :: h = l at hr
  induction hr generalizing h with
  | nil => cases hl
  | @snoc k t v e' hr hs ih =>
    cases k with
    | nil =>
      cases hl
      rw [hr.eq_of_nil] at hs
      exact ⟨v, hs, .nil⟩
    | cons e'' k =>
      cases hl
      obtain ⟨w, hw, hrest⟩ := ih rfl
      exact ⟨w, hw, hrest.snoc hs⟩

/-- A machine that can follow every step can follow every run. -/
theorem simulated {τ : Type} {step' : τ → ε → τ → Prop} {R : σ → τ → Prop} {x : τ} (h₀ : R s x)
    (hs : ∀ t e u x, R t x → step t e u → ∃ y, step' x e y ∧ R u y) (hr : Run step s h t) :
    ∃ y, Run step' x h y ∧ R t y := by
  induction hr with
  | nil => exact ⟨x, .nil, h₀⟩
  | snoc _ hstep ih =>
    obtain ⟨y, hy, hR⟩ := ih
    obtain ⟨z, hz, hR'⟩ := hs _ _ _ y hR hstep
    exact ⟨z, hy.snoc hz, hR'⟩

/-- What holds at the start and is kept by every step holds after every run. -/
theorem invariant {P : σ → Prop} (h₀ : P s) (hp : ∀ t e u, P t → step t e u → P u)
    (hr : Run step s h t) : P t := by
  induction hr with
  | nil => exact h₀
  | snoc _ hs ih => exact hp _ _ _ ih hs

/-- The same for a property of the labels so far and the state reached. -/
theorem history {P : List ε → σ → Prop} (h₀ : P [] s)
    (hp : ∀ h t e u, Run step s h t → P h t → step t e u → P (h ++ [e]) u)
    (hr : Run step s h t) : P h t := by
  induction hr with
  | nil => exact h₀
  | snoc hr hs ih => exact hp _ _ _ _ hr ih hs

/-- A step relation that allows the labels of a run has that run. -/
theorem mono {r : σ → ε → σ → Prop} (hi : ∀ t e u, e ∈ h → step t e u → r t e u)
    (hr : Run step s h t) : Run r s h t := by
  induction hr with
  | nil => exact .nil
  | snoc _ hs ih =>
    refine (ih fun t e u he => hi t e u (List.mem_append_left _ he)).snoc (hi _ _ _ ?_ hs)
    exact List.mem_append_right _ List.mem_cons_self

end Run

/-- A list of inputs run through a partial machine, with the outputs it gives. -/
def exec {ι ρ : Type} (f : σ → ι → Option (ρ × σ)) : List ι → σ → Option (List ρ × σ)
  | [], s => some ([], s)
  | i :: is, s => do
    let (r, s) ← f s i
    let (rs, s) ← exec f is s
    some (r :: rs, s)

/-- The run that an execution describes. -/
theorem run_of_exec {ι ρ : Type} {f : σ → ι → Option (ρ × σ)} {l : List ι} {k : List ρ}
    {s t : σ} (h : exec f l s = some (k, t)) :
    Run (fun s (e : ι × ρ) t => f s e.1 = some (e.2, t)) s (l.zip k) t := by
  induction l generalizing s k with
  | nil =>
    simp only [exec, Option.some.injEq, Prod.mk.injEq] at h
    obtain ⟨rfl, rfl⟩ := h
    exact .nil
  | cons i is ih =>
    simp only [exec, Option.bind_eq_bind, Option.bind_eq_some_iff, Option.some.injEq,
      Prod.mk.injEq] at h
    obtain ⟨⟨r, s'⟩, h₁, ⟨rs', t'⟩, h₂, rfl, rfl⟩ := h
    exact Run.cons (by exact h₁) (ih h₂)

section Conditions
variable {ι ρ : Type} {f : σ → ι → Option (ρ × σ)} {P : σ → ι → Prop} {l : List ι} {k : List ρ}
  {s t : σ}

/-- The same if every input meets a condition, whatever the state. -/
theorem run_of_exec_all (h : exec f l s = some (k, t)) (hP : ∀ s, ∀ i ∈ l, P s i) :
    Run (fun s (e : ι × ρ) t => f s e.1 = some (e.2, t) ∧ P s e.1) s (l.zip k) t :=
  (run_of_exec h).mono fun s _ _ he hs => ⟨hs, hP s _ (List.of_mem_zip he).1⟩

/-- An execution that tests the condition at every step. -/
theorem run_of_exec_if [∀ s i, Decidable (P s i)]
    (h : exec (fun s i => if P s i then f s i else none) l s = some (k, t)) :
    Run (fun s (e : ι × ρ) t => f s e.1 = some (e.2, t) ∧ P s e.1) s (l.zip k) t :=
  (run_of_exec h).mono fun _ _ _ _ hs => (Option.ite_none_right_eq_some.mp hs).symm

end Conditions

end PubSub.Lib
