import Mathlib.Data.List.Basic
import Mathlib.Data.Option.Basic

/-! Two partial programs side by side. They are in step if both return, with results that are
related, or neither does. The rules follow the text of the two programs, which is the same
up to the states that they work on. -/

namespace PubSub.Lib

variable {α α' β β' γ σ τ ρ : Type}

/-- Both return, with related results, or neither does. -/
def InStep (R : α → β → Prop) (x : Option α) (y : Option β) : Prop := Option.Rel R x y

/-- The same result, in related states. -/
def Both (R : σ → τ → Prop) (a : ρ × σ) (b : ρ × τ) : Prop := a.1 = b.1 ∧ R a.2 b.2

namespace InStep
variable {R : α → β → Prop} {S : α' → β' → Prop} {x : Option α} {y : Option β}

theorem some {a : α} {b : β} (h : R a b) : InStep R (some a) (some b) := Option.Rel.some h

theorem none : InStep R Option.none Option.none := Option.Rel.none

theorem left {a : α} (h : InStep R x y) (hx : x = Option.some a) :
    ∃ b, y = Option.some b ∧ R a b := by
  subst hx
  cases h with
  | some hab => exact ⟨_, rfl, hab⟩

theorem right {b : β} (h : InStep R x y) (hy : y = Option.some b) :
    ∃ a, x = Option.some a ∧ R a b := by
  subst hy
  cases h with
  | some hab => exact ⟨_, rfl, hab⟩

theorem of_isSome (h : x.isSome ↔ y.isSome)
    (hR : ∀ a b, x = Option.some a → y = Option.some b → R a b) : InStep R x y := by
  cases x with
  | none =>
    cases y with
    | none => exact none
    | some b => cases h.mpr rfl
  | some a =>
    cases y with
    | none => cases h.mp rfl
    | some b => exact some (hR a b rfl rfl)

theorem bind {f : α → Option α'} {g : β → Option β'} (h : InStep R x y)
    (hf : ∀ a b, R a b → InStep S (f a) (g b)) : InStep S (x.bind f) (y.bind g) := by
  cases h with
  | none => exact none
  | some hab => exact hf _ _ hab

/-- What is known of the first result may be used. -/
theorem returned (h : InStep R x y) : InStep (fun a b => R a b ∧ x = Option.some a) x y := by
  cases h with
  | none => exact none
  | some hab => exact some ⟨hab, rfl⟩

/-- A step that does not touch the state. -/
theorem read {o : Option γ} {f : γ → Option α'} {g : γ → Option β'}
    (hf : ∀ c, o = Option.some c → InStep S (f c) (g c)) : InStep S (o.bind f) (o.bind g) := by
  cases o with
  | none => exact none
  | some c => exact hf c rfl

theorem map {f : α → α'} {g : β → β'} (h : InStep R x y) (hf : ∀ a b, R a b → S (f a) (g b)) :
    InStep S (x.map f) (y.map g) := by
  cases h with
  | none => exact none
  | some hab => exact some (hf _ _ hab)

theorem ite {P : Prop} [Decidable P] {x' : Option α} {y' : Option β} (h : P → InStep R x y)
    (h' : ¬ P → InStep R x' y') : InStep R (if P then x else x') (if P then y else y') := by
  split
  case isTrue hP => exact h hP
  case isFalse hP => exact h' hP

theorem foldlM {R : σ → τ → Prop} {f : σ → γ → Option σ} {g : τ → γ → Option τ}
    (hf : ∀ c s t, R s t → InStep R (f s c) (g t c)) (l : List γ) :
    ∀ {s : σ} {t : τ}, R s t → InStep R (l.foldlM f s) (l.foldlM g t) := by
  induction l with
  | nil => exact fun h => some h
  | cons c l ih => exact fun h => (hf c _ _ h).bind fun _ _ => ih

end InStep

end PubSub.Lib
