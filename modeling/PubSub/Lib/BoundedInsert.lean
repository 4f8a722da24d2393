import Mathlib.Data.List.Sort

/-! Insertion into a list kept in order and cut to a bounded length: the element
goes in at its place, and if the list is then too long its last element comes
out. That element may be the new one. A list inserted in this way, one element at a
time, leaves the first elements of the list sorted. -/

namespace PubSub.Lib

variable {ε : Type} (r : ε → ε → Prop) [DecidableRel r]

/-- The new list, and the element that came out. -/
def boundedInsert (n : ℕ) (e : ε) (l : List ε) : List ε × Option ε :=
  let l' := l.orderedInsert r e
  if n < l'.length then (l'.dropLast, l'.getLast?) else (l', none)

variable {r} {n : ℕ} {e : ε} {hi lo : List ε}

theorem orderedInsert_append (hi lo : List ε) (h₁ : ∀ x ∈ hi, ¬ r e x) (h₂ : ∀ x ∈ lo, r e x) :
    (hi ++ lo).orderedInsert r e = hi ++ e :: lo := by
  induction hi with
  | nil =>
    cases lo with
    | nil => rfl
    | cons b lo => rw [List.nil_append, List.orderedInsert, if_pos (h₂ b (by simp)), List.nil_append]
  | cons b hi ih =>
    rw [List.cons_append, List.orderedInsert, if_neg (h₁ b (by simp)),
      ih fun x hx => h₁ x (by simp [hx]), List.cons_append]

theorem boundedInsert_room (h₁ : ∀ x ∈ hi, ¬ r e x) (h₂ : ∀ x ∈ lo, r e x)
    (hn : (hi ++ lo).length < n) : boundedInsert r n e (hi ++ lo) = (hi ++ e :: lo, none) := by
  have hl : ¬ n < (hi ++ e :: lo).length := by simp at hn ⊢; omega
  simp only [boundedInsert, orderedInsert_append hi lo h₁ h₂, hl, if_false]

/-- In a full list the new element comes out if nothing ranks below it. -/
theorem boundedInsert_reject (h₁ : ∀ x ∈ hi, ¬ r e x) (hn : n ≤ hi.length) :
    boundedInsert r n e hi = (hi, some e) := by
  have h := orderedInsert_append hi [] h₁ (by simp)
  rw [List.append_nil] at h
  have hl : n < (hi ++ [e]).length := by simp; omega
  simp only [boundedInsert, h, hl, if_true, List.dropLast_concat, List.getLast?_concat]

/-- In a full list the last element comes out if it ranks below the new one. -/
theorem boundedInsert_evict {x : ε} (h₁ : ∀ y ∈ hi, ¬ r e y) (h₂ : ∀ y ∈ lo, r e y) (h₃ : r e x)
    (hn : n ≤ (hi ++ (lo ++ [x])).length) :
    boundedInsert r n e (hi ++ (lo ++ [x])) = (hi ++ e :: lo, some x) := by
  have h := orderedInsert_append hi (lo ++ [x]) h₁ fun y hy => by
    rcases List.mem_append.mp hy with hy | hy
    · exact h₂ y hy
    · rw [List.mem_singleton.mp hy]
      exact h₃
  have hl : n < (hi ++ e :: (lo ++ [x])).length := by
    simp only [List.length_append, List.length_cons] at hn ⊢
    omega
  have hs : hi ++ e :: (lo ++ [x]) = (hi ++ e :: lo) ++ [x] := by simp
  simp only [boundedInsert, h, hl, if_true]
  rw [hs, List.dropLast_concat, List.getLast?_concat]

/-- The list stays in order. -/
theorem boundedInsert_pairwise [Std.Total r] [IsTrans ε r] {l : List ε} (h : l.Pairwise r) :
    (boundedInsert r n e l).1.Pairwise r := by
  have h' := h.orderedInsert e l
  unfold boundedInsert
  dsimp only
  split
  · exact h'.sublist (List.dropLast_sublist _)
  · exact h'

/-- An insertion keeps an order in which the relation that places the element agrees. -/
theorem pairwise_orderedInsert {s : ε → ε → Prop} (htrans : ∀ a b c, s a b → s b c → s a c)
    (hbefore : ∀ b, r e b → s e b) (hafter : ∀ b, ¬ r e b → s b e) {l : List ε}
    (h : l.Pairwise s) : (l.orderedInsert r e).Pairwise s := by
  induction l with
  | nil => exact List.pairwise_singleton s e
  | cons b l ih =>
    obtain ⟨hb, hl⟩ := List.pairwise_cons.mp h
    rw [List.orderedInsert]
    split
    case isTrue hr =>
      refine List.pairwise_cons.mpr ⟨fun c hc => ?_, h⟩
      rcases List.mem_cons.mp hc with rfl | hc
      · exact hbefore c hr
      · exact htrans e b c (hbefore b hr) (hb c hc)
    case isFalse hr =>
      refine List.pairwise_cons.mpr ⟨fun c hc => ?_, ih hl⟩
      rcases (List.mem_orderedInsert r).mp hc with rfl | hc
      · exact hafter b hr
      · exact hb c hc

/-! ### A list of insertions -/

/-- The elements of `es`, inserted one after the other. -/
def boundedInserts (r : ε → ε → Prop) [DecidableRel r] (n : ℕ) (es l : List ε) : List ε :=
  es.foldl (fun l e => (boundedInsert r n e l).1) l

theorem boundedInsert_fst {l : List ε} (h : l.length ≤ n) :
    (boundedInsert r n e l).1 = (l.orderedInsert r e).take n := by
  have hlen : (l.orderedInsert r e).length = l.length + 1 := List.orderedInsert_length r l e
  unfold boundedInsert
  dsimp only
  split
  case isTrue hlt =>
    show (l.orderedInsert r e).dropLast = _
    rw [List.dropLast_eq_take, show (l.orderedInsert r e).length - 1 = n by omega]
  case isFalse hle => rw [List.take_of_length_le (by omega)]

theorem length_boundedInsert_le {l : List ε} (h : l.length ≤ n) :
    (boundedInsert r n e l).1.length ≤ n := by
  rw [boundedInsert_fst h]
  exact List.length_take_le n _

theorem pairwise_boundedInsert {s : ε → ε → Prop} (htrans : ∀ a b c, s a b → s b c → s a c)
    (hbefore : ∀ b, r e b → s e b) (hafter : ∀ b, ¬ r e b → s b e) {l : List ε} (hn : l.length ≤ n)
    (h : l.Pairwise s) : (boundedInsert r n e l).1.Pairwise s := by
  rw [boundedInsert_fst hn]
  exact (pairwise_orderedInsert htrans hbefore hafter h).sublist (List.take_sublist n _)

/-- What has come out would have come out later. -/
theorem take_orderedInsert_take (l : List ε) :
    ((l.take n).orderedInsert r e).take n = (l.orderedInsert r e).take n := by
  induction l generalizing n with
  | nil => simp
  | cons b l ih =>
    cases n with
    | zero => simp
    | succ n =>
      rw [List.take_succ_cons, List.orderedInsert, List.orderedInsert]
      split
      · cases n with
        | zero => rfl
        | succ n =>
          simp only [List.take_succ_cons, List.take_take]
          rw [Nat.min_eq_left (Nat.le_succ n)]
      · rw [List.take_succ_cons, List.take_succ_cons, ih]

theorem boundedInserts_take (es l : List ε) :
    boundedInserts r n es (l.take n) = (es.foldl (fun l e => l.orderedInsert r e) l).take n := by
  induction es generalizing l with
  | nil => rfl
  | cons e es ih =>
    have hstep : (boundedInsert r n e (l.take n)).1 = (l.orderedInsert r e).take n := by
      rw [boundedInsert_fst (List.length_take_le n l), take_orderedInsert_take]
    rw [boundedInserts, List.foldl_cons, hstep, List.foldl_cons]
    exact ih _

/-- Inserted into the empty list, the elements are sorted and cut. -/
theorem boundedInserts_nil (es : List ε) :
    boundedInserts r n es [] = (es.reverse.insertionSort r).take n := by
  have h := boundedInserts_take (r := r) (n := n) es []
  rw [List.take_nil] at h
  rw [h, List.insertionSort, List.foldr_reverse]

/-- Elements that are numbered, and compared by `le` and then by number, come out of the
insertions as they come out of a stable sort. -/
theorem boundedInserts_stable [Std.Total r] [IsTrans ε r] {α : Type} {le : α → α → Bool}
    (htrans : ∀ a b c, le a b → le b c → le a c) (htotal : ∀ a b, le a b || le b a)
    {g : α × ℕ → ε} (hg : ∀ a b, r (g a) (g b) ↔ List.zipIdxLE le a b = true)
    {f : ε → α} (hf : ∀ a, f (g a) = a.1) (l : List α) :
    (boundedInserts r n (l.zipIdx.map g) []).map f = (l.mergeSort le).take n := by
  have hsort : ((l.zipIdx.map g).reverse.insertionSort r) =
      (l.zipIdx.mergeSort (List.zipIdxLE le)).map g := by
    have hmem : ∀ a ∈ l.zipIdx, l[a.2]? = some a.1 := fun a ha => List.mem_zipIdx_iff_getElem?.mp ha
    have hperm := List.mergeSort_perm l.zipIdx (List.zipIdxLE le)
    apply @List.Perm.eq_of_pairwise _ r
    · intro x y hx hy hxy hyx
      rw [List.mem_insertionSort, List.mem_reverse] at hx
      obtain ⟨a, ha, rfl⟩ := List.mem_map.mp hx
      obtain ⟨b, hb, rfl⟩ := List.mem_map.mp hy
      rw [hg, List.zipIdxLE] at hxy hyx
      have hnum : a.2 = b.2 := by
        split at hxy <;> split at hyx <;> simp_all
        omega
      have hfst : a.1 = b.1 := by
        have h₁ := hmem a ha
        have h₂ := hmem b (hperm.mem_iff.mp hb)
        rw [hnum, h₂] at h₁
        exact (Option.some.inj h₁).symm
      rw [Prod.ext hfst hnum]
    · exact List.pairwise_insertionSort r _
    · rw [List.pairwise_map]
      exact (List.pairwise_mergeSort (List.zipIdxLE_trans htrans) (List.zipIdxLE_total htotal) _).imp
        (hg _ _).mpr
    · exact (List.perm_insertionSort r _).trans
        ((List.reverse_perm _).trans (hperm.map g).symm)
  have hfg : f ∘ g = Prod.fst := funext hf
  rw [boundedInserts_nil, hsort, List.map_take, List.map_map, hfg, List.mergeSort_zipIdx]

end PubSub.Lib
