import Mathlib.Data.List.Infix
import Mathlib.Data.List.Induction
import Mathlib.Data.List.Nodup

/-! Names whose segments are separated by one symbol, and the ancestors of a
name: the name, every beginning of it that ends just before a separator, and the
empty name. The longest proper ancestor drops the last segment, so the list of
all ancestors, longest first, is found by dropping one segment at a time. Empty
segments (a leading, trailing or doubled separator) are segments like others. -/

namespace PubSub.Lib

variable {α : Type} [DecidableEq α] (sep : α)

/-- `p` is `t`, or empty, or `t` goes on after `p` with a separator. -/
def IsAncestor (p t : List α) : Prop := p = t ∨ p = [] ∨ p ++ [sep] <+: t

instance (p t : List α) : Decidable (IsAncestor sep p t) :=
  inferInstanceAs (Decidable (p = t ∨ p = [] ∨ p ++ [sep] <+: t))

/-- The ancestors of `t`, longest first. -/
def ancestors (t : List α) : List (List α) := t.inits.reverse.filter fun p => IsAncestor sep p t

/-- `t` without its last segment and the separator before it. -/
def dropSegment (t : List α) : List α := (t.reverse.dropWhile (· ≠ sep)).tail.reverse

theorem mem_ancestors {p t : List α} : p ∈ ancestors sep t ↔ IsAncestor sep p t := by
  simp only [ancestors, List.mem_filter, List.mem_reverse, List.mem_inits, decide_eq_true_eq,
    and_iff_right_iff_imp]
  rintro (rfl | rfl | h)
  · exact List.prefix_refl p
  · exact List.nil_prefix
  · exact (List.prefix_append p [sep]).trans h

theorem nodup_ancestors (t : List α) : (ancestors sep t).Nodup := by
  apply List.Nodup.filter
  rw [List.nodup_reverse]
  induction t with
  | nil => simp
  | cons a t ih =>
    rw [List.inits_cons, List.nodup_cons]
    exact ⟨by simp, ih.map fun _ _ h => (List.cons.inj h).2⟩

/-- Longest first. -/
theorem ancestors_sorted (t : List α) :
    (ancestors sep t).Pairwise fun p q => q.length < p.length := by
  apply List.Pairwise.filter
  rw [List.pairwise_reverse]
  induction t with
  | nil => simp
  | cons a t ih =>
    rw [List.inits_cons, List.pairwise_cons, List.pairwise_map]
    exact ⟨by simp, ih.imp fun h => by simpa using h⟩

@[simp] theorem dropSegment_nil : dropSegment sep [] = [] := rfl

@[simp] theorem dropSegment_snoc_sep (u : List α) : dropSegment sep (u ++ [sep]) = u := by
  simp [dropSegment]

theorem dropSegment_snoc {c : α} (h : c ≠ sep) (u : List α) :
    dropSegment sep (u ++ [c]) = dropSegment sep u := by
  simp [dropSegment, h]

theorem length_dropSegment_lt {t : List α} (h : t ≠ []) :
    (dropSegment sep t).length < t.length := by
  induction t using List.reverseRecOn with
  | nil => exact absurd rfl h
  | append_singleton u c ih =>
    rw [List.length_append, List.length_singleton]
    by_cases hc : c = sep
    · rw [hc, dropSegment_snoc_sep]
      omega
    · rw [dropSegment_snoc sep hc]
      by_cases hu : u = []
      · simp [hu]
      · have := ih hu
        omega

@[simp] theorem ancestors_nil : ancestors sep [] = [[]] := by
  simp [ancestors, IsAncestor]

omit [DecidableEq α] in
theorem isAncestor_snoc_sep {p u : List α} (hp : p <+: u) :
    IsAncestor sep p (u ++ [sep]) ↔ IsAncestor sep p u := by
  have hne : p ≠ u ++ [sep] := by
    intro h
    have := hp.length_le
    rw [h, List.length_append, List.length_singleton] at this
    omega
  simp only [IsAncestor, hne, false_or, List.prefix_concat_iff, List.append_left_inj]
  tauto

omit [DecidableEq α] in
theorem isAncestor_snoc {c : α} (hc : c ≠ sep) {p u : List α} (hp : p <+: u) :
    IsAncestor sep p (u ++ [c]) ↔ IsAncestor sep p u ∧ (p = u → u = []) := by
  have hne : p ≠ u ++ [c] := by
    intro h
    have := hp.length_le
    rw [h, List.length_append, List.length_singleton] at this
    omega
  have hsep : p ++ [sep] ≠ u ++ [c] := by
    intro h
    exact hc (List.singleton_inj.mp (List.append_inj' h rfl).2).symm
  have hlong : ¬ u ++ [sep] <+: u := by
    intro h
    have := h.length_le
    rw [List.length_append, List.length_singleton] at this
    omega
  simp only [IsAncestor, hne, false_or, List.prefix_concat_iff, hsep]
  constructor
  · rintro (rfl | h)
    · exact ⟨.inr (.inl rfl), fun h => h.symm⟩
    · exact ⟨.inr (.inr h), fun he => absurd (he ▸ h) hlong⟩
  · rintro ⟨rfl | rfl | h, hu⟩
    · exact .inl (hu rfl)
    · exact .inl rfl
    · exact .inr h

/-- The ancestors of a name are the name and those of its longest proper one. -/
theorem ancestors_cons {t : List α} (h : t ≠ []) :
    ancestors sep t = t :: ancestors sep (dropSegment sep t) := by
  induction t using List.reverseRecOn with
  | nil => exact absurd rfl h
  | append_singleton u c ih =>
    have hself : IsAncestor sep (u ++ [c]) (u ++ [c]) := .inl rfl
    have hinits : ancestors sep (u ++ [c]) = (u ++ [c]) ::
        u.inits.reverse.filter fun p => IsAncestor sep p (u ++ [c]) := by
      rw [ancestors, List.inits_append]
      simp [hself]
    rw [hinits]
    congr 1
    by_cases hc : c = sep
    · subst hc
      rw [dropSegment_snoc_sep, ancestors]
      refine List.filter_congr fun p hp => ?_
      rw [decide_eq_decide, isAncestor_snoc_sep c (by simpa using hp)]
    · rw [dropSegment_snoc sep hc]
      by_cases hu : u = []
      · simp [hu, IsAncestor]
      · -- among the beginnings of `u`, only `u` itself is an ancestor of `u` alone
        have hfilter : (u.inits.reverse.filter fun p => IsAncestor sep p (u ++ [c])) =
            (ancestors sep u).filter (· ≠ u) := by
          rw [ancestors, List.filter_filter]
          refine List.filter_congr fun p hp => ?_
          rw [← Bool.decide_and, decide_eq_decide, isAncestor_snoc sep hc (by simpa using hp)]
          simp only [hu, imp_false]
          tauto
        have hnd := nodup_ancestors sep u
        rw [ih hu, List.nodup_cons] at hnd
        rw [hfilter, ih hu, List.filter_cons_of_neg (by simp), List.filter_eq_self]
        intro p hp
        rw [decide_eq_true_eq]
        rintro rfl
        exact hnd.1 hp

/-- The last ancestor is the empty name, and no other is empty. -/
theorem ancestors_eq_concat (t : List α) :
    ancestors sep t = (ancestors sep t).filter (· ≠ []) ++ [[]] := by
  by_cases ht : t = []
  · rw [ht, ancestors_nil]
    rfl
  · rw [ancestors_cons sep ht, List.filter_cons_of_pos (by simpa using ht), List.cons_append,
      ← ancestors_eq_concat (dropSegment sep t)]
  termination_by t.length
  decreasing_by exact length_dropSegment_lt sep ht

end PubSub.Lib
