import PubSub.Lib.Ancestors
import Mathlib.Data.List.TakeWhile

/-! Topic strings: the cut at the first space, the truncation loop of
`ps_publish` and `ps_subs_count`, and the subtree test of `push_child_sticky`
and `ps_clean_sticky`. A C string is the list of its characters, without the
terminator. -/

namespace PubSub

open Lib

abbrev Str := List Char

/-- The topic: the text before the first space. -/
def cutFlags (t : Str) : Str := t.takeWhile (· ≠ ' ')

/-- The text after the first space, if there is one. -/
def flagText (t : Str) : Option Str :=
  match t.dropWhile (· ≠ ' ') with
  | [] => none
  | _ :: fl => some fl

/-- The loop `for (n = strlen(topic); n > 0; n--)`, which overwrites the last
character with a terminator until it has overwritten a `.`. -/
def truncateLoop : ℕ → Str → Str
  | 0, topic => topic
  | n + 1, topic =>
    if topic[n]? = some '.' then topic.take n else truncateLoop n (topic.take n)

def truncate (topic : Str) : Str := truncateLoop topic.length topic

/-- `strncmp(a, b, n) == 0`. -/
def strncmpEq (a b : Str) (n : ℕ) : Bool := a.take n = b.take n

/-- `topic` is `pre`, or below it, or `pre` is empty. -/
def inSubtree (pre topic : Str) : Bool :=
  pre.length = 0 ||
    (strncmpEq pre topic pre.length && (topic[pre.length]? = none || topic[pre.length]? = some '.'))

theorem not_mem_cutFlags (t : Str) : ' ' ∉ cutFlags t := fun h => by
  simpa using List.mem_takeWhile_imp h

theorem cutFlags_eq_self {t : Str} (h : ' ' ∉ t) : cutFlags t = t := by
  rw [cutFlags, List.takeWhile_eq_self_iff]
  intro c hc
  rw [decide_eq_true_eq]
  rintro rfl
  exact h hc

theorem truncate_snoc (u : Str) (c : Char) :
    truncate (u ++ [c]) = if c = '.' then u else truncate u := by
  simp only [truncate, List.length_append, List.length_singleton, truncateLoop]
  simp

/-- The loop drops the last segment. -/
theorem truncate_eq (t : Str) : truncate t = dropSegment '.' t := by
  induction t using List.reverseRecOn with
  | nil => rfl
  | append_singleton u c ih =>
    rw [truncate_snoc]
    split
    case isTrue h => rw [h, dropSegment_snoc_sep]
    case isFalse h => rw [dropSegment_snoc '.' h, ih]

theorem length_truncate_lt {t : Str} (h : t ≠ []) : (truncate t).length < t.length := by
  rw [truncate_eq]
  exact length_dropSegment_lt '.' h

/-- The subtree test is the ancestor relation. -/
theorem inSubtree_iff {p t : Str} : inSubtree p t = true ↔ IsAncestor '.' p t := by
  simp only [inSubtree, strncmpEq, IsAncestor, Bool.or_eq_true, Bool.and_eq_true,
    decide_eq_true_eq, List.take_length]
  constructor
  · rintro (h | ⟨h, hend⟩)
    · exact .inr (.inl (List.length_eq_zero_iff.mp h))
    · obtain ⟨rest, rfl⟩ : p <+: t := h ▸ List.take_prefix p.length t
      cases rest with
      | nil => exact .inl (List.append_nil p).symm
      | cons c rest =>
        refine .inr (.inr ?_)
        rcases hend with hend | hend
        · simp at hend
        · obtain rfl : c = '.' := by simpa using hend
          exact ⟨rest, by simp⟩
  · rintro (rfl | rfl | ⟨rest, rfl⟩)
    · exact .inr ⟨by simp, .inl (by simp)⟩
    · exact .inl rfl
    · exact .inr ⟨by simp, .inr (by simp)⟩

end PubSub
