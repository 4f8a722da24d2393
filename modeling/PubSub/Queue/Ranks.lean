import PubSub.Queue.Bucket
import PubSub.Queue.Idle

/-! The bucket queue by ranks: how many of its messages have a priority of at
least `k`. A push adds one to these numbers, up to the capacity, so they also tell
when it evicts. -/

namespace PubSub.Bucket

variable {α : Type}

/-- The number of messages with a priority of at least `k`. -/
def atLeast (q : Queue α) (k : ℕ) : ℕ := (contents q).countP fun x => k ≤ x.1

section Span
variable {q : Queue α} {p k : ℕ}

theorem atLeast_zero (q : Queue α) : atLeast q 0 = (contents q).length := by
  simp [atLeast]

theorem atLeast_le (q : Queue α) (k : ℕ) : atLeast q k ≤ (contents q).length :=
  List.countP_le_length

/-- Highest priority first. -/
theorem span_sorted (q : Queue α) (lo n : ℕ) : (span q lo n).Pairwise fun a b => b.1 ≤ a.1 := by
  induction n with
  | zero => exact List.Pairwise.nil
  | succ n ih =>
    rw [span, List.pairwise_append]
    refine ⟨List.pairwise_of_forall_mem_list fun a ha b hb => ?_, ih, fun a ha b hb => ?_⟩
    · exact Nat.le_of_eq ((mem_rowItems hb).1.trans (mem_rowItems ha).1.symm)
    · have := (mem_span hb).2
      rw [(mem_rowItems ha).1]
      omega

/-- No message below `p` waits. -/
theorem le_of_span_eq_nil (h : span q 0 p = []) {x : ℕ × α} (hx : x ∈ contents q) : p ≤ x.1 := by
  rcases Nat.le_total p PRIORITIES with hp | hp
  · rw [contents_split q hp, h, List.append_nil] at hx
    exact (mem_span hx).1
  · obtain ⟨r, rfl⟩ := Nat.exists_eq_add_of_le hp
    rw [span_add, List.append_eq_nil_iff] at h
    rw [contents, h.2] at hx
    cases hx

theorem countP_span_above (n : ℕ) (hk : k ≤ p) :
    (span q p n).countP (fun x => k ≤ x.1) = (span q p n).length := by
  rw [List.countP_eq_length]
  intro x hx
  have := (mem_span hx).1
  simp only [decide_eq_true_eq]
  omega

theorem countP_span_below (hk : p ≤ k) : (span q 0 p).countP (fun x => k ≤ x.1) = 0 := by
  rw [List.countP_eq_zero]
  intro x hx
  have := (mem_span hx).2
  simp only [decide_eq_true_eq]
  omega

end Span

section Push
variable {q q' : Queue α} {m : α} {p : UInt8} {ret : QueueRet} {d : Option α}

/-- Among the messages below `p`, one at the end has the lowest priority. -/
theorem countP_snoc {low : List (ℕ × α)} {e : ℕ × α} (h : span q 0 p.toNat = low ++ [e]) (k : ℕ) :
    (k ≤ e.1 ∧ low.countP (fun x => k ≤ x.1) = low.length) ∨
      (e.1 < k ∧ (low ++ [e]).countP (fun x => k ≤ x.1) = low.countP fun x => k ≤ x.1) := by
  have hs := span_sorted q 0 p.toNat
  rw [h, List.pairwise_append] at hs
  rcases Nat.lt_or_ge e.1 k with hk | hk
  · refine .inr ⟨hk, ?_⟩
    rw [List.countP_append, List.countP_singleton, if_neg (by simpa using hk), Nat.add_zero]
  · refine .inl ⟨hk, ?_⟩
    rw [List.countP_eq_length]
    intro x hx
    have := hs.2.2 x hx e (by simp)
    simp only [decide_eq_true_eq]
    omega

/-- A push adds one to the messages of at least each priority up to its own, unless
they fill the queue. -/
theorem push_atLeast (hq : Inv 0 q) (h : psQueuePush q m p = some (ret, d, q')) (k : ℕ) :
    atLeast q' k = min (capacity q) (atLeast q k + if k ≤ p.toNat then 1 else 0) := by
  have hcap := capacity_eq hq.noNull
  have hle := atLeast_le q k
  have hone : (if k ≤ p.toNat then 1 else 0) ≤ 1 := by split <;> omega
  rcases psQueuePush_cases hq.noNull h with ⟨n, -, -, hp, ha, -, -, hc⟩ |
    ⟨-, -, ha, rfl, hnil⟩ | ⟨e, low, -, -, hp, ha, -, -, -, hlow, hc⟩
  · have hsplit := contents_split q (Nat.le_of_lt hp)
    have hadd : atLeast q' k = atLeast q k + if k ≤ p.toNat then 1 else 0 := by
      rw [atLeast, atLeast, hc, hsplit, List.countP_append, List.countP_append, List.countP_cons]
      simp only [decide_eq_true_eq]
      omega
    rw [ha, List.length_cons] at hcap
    rw [hadd, Nat.min_eq_right (by omega)]
  · rw [ha, List.length_nil, Nat.zero_add] at hcap
    split
    case isTrue hk =>
      have hall : atLeast q' k = (contents q').length := by
        rw [atLeast, List.countP_eq_length]
        intro x hx
        have := le_of_span_eq_nil hnil hx
        simp only [decide_eq_true_eq]
        omega
      omega
    case isFalse => omega
  · have hsplit := contents_split q (Nat.le_of_lt hp)
    have hbefore : atLeast q k = (span q p.toNat (PRIORITIES - p.toNat)).countP (fun x => k ≤ x.1) +
        (low ++ [e]).countP fun x => k ≤ x.1 := by
      rw [atLeast, hsplit, List.countP_append, hlow]
    have hafter : atLeast q' k = (span q p.toNat (PRIORITIES - p.toNat)).countP (fun x => k ≤ x.1) +
        ((low.countP fun x => k ≤ x.1) + if k ≤ p.toNat then 1 else 0) := by
      rw [atLeast, hc, List.countP_append, List.countP_cons]
      simp only [decide_eq_true_eq]
    have hfull : capacity q = (span q p.toNat (PRIORITIES - p.toNat)).length + (low.length + 1) := by
      rw [hcap, ha, hsplit, hlow]
      simp
    have he : e.1 < p.toNat := by
      have := (mem_span (q := q) (x := e) (by rw [hlow]; simp)).2
      omega
    have hhigh := List.countP_le_length (p := fun x => decide (k ≤ x.1))
      (l := span q p.toNat (PRIORITIES - p.toNat))
    have hlowle := List.countP_le_length (p := fun x => decide (k ≤ x.1)) (l := low)
    rcases countP_snoc hlow k with ⟨hk, hall⟩ | ⟨hk, hnone⟩
    · have hkp : k ≤ p.toNat := by omega
      have habove := countP_span_above (q := q) (PRIORITIES - p.toNat) hkp
      rw [List.countP_append, List.countP_singleton, hall, if_pos (by simpa using hk), habove] at hbefore
      rw [hall, habove, if_pos hkp] at hafter
      rw [if_pos hkp]
      omega
    · rw [hnone] at hbefore
      rw [Nat.min_eq_right (by omega)]
      omega

/-- A push evicts when the queue is full and holds a message of lower priority. -/
theorem push_eoverflow (hq : Inv 0 q) (h : psQueuePush q m p = some (ret, d, q')) :
    ret = .eoverflow ↔ capacity q ≤ atLeast q 0 ∧ atLeast q p.toNat < capacity q := by
  have hcap := capacity_eq hq.noNull
  rw [atLeast_zero]
  rcases psQueuePush_cases hq.noNull h with ⟨n, rfl, -, hp, ha, -, -, hc⟩ |
    ⟨rfl, -, ha, rfl, hnil⟩ | ⟨e, low, rfl, -, hp, ha, -, -, -, hlow, hc⟩
  · rw [ha, List.length_cons] at hcap
    simp only [reduceCtorEq, false_iff, not_and]
    omega
  · rw [ha, List.length_nil] at hcap
    have hall : atLeast q' p.toNat = (contents q').length := by
      rw [atLeast, List.countP_eq_length]
      intro x hx
      simpa using le_of_span_eq_nil hnil hx
    simp only [reduceCtorEq, false_iff, not_and]
    omega
  · rw [ha, List.length_nil] at hcap
    have hsplit := contents_split q (Nat.le_of_lt hp)
    have hlen : (contents q).length =
        (span q p.toNat (PRIORITIES - p.toNat)).length + (low.length + 1) := by
      rw [hsplit, hlow]
      simp
    have hp' : atLeast q p.toNat = (span q p.toNat (PRIORITIES - p.toNat)).length := by
      rw [atLeast, hsplit, List.countP_append, countP_span_above _ (Nat.le_refl _),
        countP_span_below (Nat.le_refl _), Nat.add_zero]
    simp only [true_iff]
    omega

end Push

end PubSub.Bucket
