import Mathlib.Data.List.Induction

/-! The store that a history of writes leaves. An event may set or clear several
keys; what a key holds is decided by the last event that touches it. -/

namespace PubSub.Lib

variable {ε κ α : Type}

/-- The value that the events leave at `k`, where `w e k` is what the event `e`
writes there, if it touches `k`. -/
def replay (w : ε → κ → Option (Option α)) (k : κ) (es : List ε) : Option α :=
  es.foldl (fun v e => (w e k).getD v) none

theorem replay_snoc (w : ε → κ → Option (Option α)) (k : κ) (es : List ε) (e : ε) :
    replay w k (es ++ [e]) = (w e k).getD (replay w k es) := by
  simp [replay]

theorem replay_append_of_untouched {w : ε → κ → Option (Option α)} {k : κ} {es fs : List ε}
    (h : ∀ e ∈ fs, w e k = none) : replay w k (es ++ fs) = replay w k es := by
  induction fs using List.reverseRecOn with
  | nil => rw [List.append_nil]
  | append_singleton fs e ih =>
    rw [← List.append_assoc, replay_snoc, h e (by simp), Option.getD_none]
    exact ih fun f hf => h f (by simp [hf])

/-- A key holds `a` if and only if the last event that touches it writes `a`. -/
theorem replay_eq_some {w : ε → κ → Option (Option α)} {k : κ} {es : List ε} {a : α} :
    replay w k es = some a ↔ ∃ pre e post, es = pre ++ e :: post ∧ w e k = some (some a) ∧
      ∀ f ∈ post, w f k = none := by
  constructor
  · intro h
    induction es using List.reverseRecOn with
    | nil => cases h
    | append_singleton es e ih =>
      rw [replay_snoc] at h
      cases hw : w e k with
      | some v =>
        rw [hw, Option.getD_some] at h
        exact ⟨es, e, [], rfl, by rw [hw, h], by simp⟩
      | none =>
        rw [hw, Option.getD_none] at h
        obtain ⟨pre, f, post, rfl, hf, hpost⟩ := ih h
        refine ⟨pre, f, post ++ [e], by simp, hf, fun g hg => ?_⟩
        rcases List.mem_append.mp hg with hg | hg
        · exact hpost g hg
        · rw [List.mem_singleton.mp hg, hw]
  · rintro ⟨pre, e, post, rfl, he, hpost⟩
    rw [← List.singleton_append, ← List.append_assoc, replay_append_of_untouched hpost, replay_snoc,
      he, Option.getD_some]

end PubSub.Lib
