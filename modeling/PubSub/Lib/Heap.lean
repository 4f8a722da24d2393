import PubSub.Lib.Cells

/-! A heap of blocks that remembers what was released and by what, and the account
of a stretch of allocations and releases. -/

namespace PubSub.Lib

/-- The live blocks, and the releases so far with what released each, oldest first. -/
structure Heap (β ρ : Type) where
  blocks : Cells β
  released : List (ℕ × ρ)

namespace Heap

variable {β ρ : Type} {H H' H'' : Heap β ρ} {out out' : List (ℕ × ρ)} {n n' b : ℕ}

def empty : Heap β ρ := ⟨.empty, []⟩

def alloc (H : Heap β ρ) (a : β) : ℕ × Heap β ρ :=
  (H.blocks.next, { H with blocks := H.blocks.alloc a })

/-- `none` is the release of a block that is not live. -/
def release (H : Heap β ρ) (r : ρ) (b : ℕ) : Option (Heap β ρ) := do
  let _ ← H.blocks.get b
  some { blocks := H.blocks.free b, released := H.released ++ [(b, r)] }

theorem release_of_live {r : ρ} (h : (H.blocks.get b).isSome) : ∃ H', H.release r b = some H' := by
  obtain ⟨a, ha⟩ := Option.isSome_iff_exists.mp h
  exact ⟨_, by rw [release, ha]; rfl⟩

/-- How often the block is in the list. -/
def count (out : List (ℕ × ρ)) (b : ℕ) : ℕ := out.countP fun x => x.1 = b

@[simp] theorem count_nil (b : ℕ) : count ([] : List (ℕ × ρ)) b = 0 := rfl

@[simp] theorem count_append (out out' : List (ℕ × ρ)) (b : ℕ) :
    count (out ++ out') b = count out b + count out' b := List.countP_append

theorem count_eq_zero : count out b = 0 ↔ ∀ x ∈ out, x.1 ≠ b := by
  simp [count, List.countP_eq_zero]

/-- 1 if the block is live. -/
def live (H : Heap β ρ) (b : ℕ) : ℕ := if (H.blocks.get b).isSome then 1 else 0

theorem live_eq_one : H.live b = 1 ↔ (H.blocks.get b).isSome := by
  unfold live
  split <;> simp [*]

/-- 1 if the block has been allocated. -/
def allocated (H : Heap β ρ) (b : ℕ) : ℕ := if b < H.blocks.next then 1 else 0

/-- 1 if the block is one of `n` allocated from `next` on. -/
def fresh (next n b : ℕ) : ℕ := if next ≤ b ∧ b < next + n then 1 else 0

@[simp] theorem fresh_zero (next b : ℕ) : fresh next 0 b = 0 := by
  unfold fresh
  rw [if_neg (by omega)]

theorem fresh_one (next b : ℕ) : fresh next 1 b = if next = b then 1 else 0 := by
  unfold fresh
  split_ifs <;> omega

theorem fresh_add (next n n' b : ℕ) :
    fresh next (n + n') b = fresh next n b + fresh (next + n) n' b := by
  unfold fresh
  split_ifs <;> omega

/-- A block that has been allocated is live or was released, and then once. -/
def Sound (H : Heap β ρ) : Prop := ∀ b, H.live b + count H.released b = H.allocated b

theorem Sound.empty : (empty : Heap β ρ).Sound := fun _ => rfl

/-- From `H` to `H'` the list `out` was released, and `n` blocks were allocated. -/
structure Changes (H : Heap β ρ) (out : List (ℕ × ρ)) (n : ℕ) (H' : Heap β ρ) : Prop where
  released : H'.released = H.released ++ out
  next : H'.blocks.next = H.blocks.next + n
  get : ∀ b < H.blocks.next,
    H'.blocks.get b = if 0 < count out b then none else H.blocks.get b
  fresh : ∀ b, H.blocks.next ≤ b → b < H'.blocks.next → (H'.blocks.get b).isSome

namespace Changes

theorem refl (H : Heap β ρ) : H.Changes [] 0 H where
  released := by simp
  next := rfl
  get := by simp
  fresh b hb hlt := by omega

theorem alloc (H : Heap β ρ) (a : β) : H.Changes [] 1 (H.alloc a).2 where
  released := by simp [Heap.alloc]
  next := rfl
  get b hb := by
    rw [count_nil, if_neg (by omega)]
    exact (Cells.get_alloc ..).trans (if_neg hb.ne)
  fresh b hb hlt := by
    obtain rfl : b = H.blocks.next := by
      have hlt' : b < H.blocks.next + 1 := hlt
      omega
    show ((H.blocks.alloc a).get H.blocks.next).isSome
    rw [Cells.get_alloc_self, Option.isSome_some]

theorem release {r : ρ} (h : H.release r b = some H') : H.Changes [(b, r)] 0 H' := by
  rw [Heap.release] at h
  obtain ⟨a, ha, heq⟩ := Option.bind_eq_some_iff.mp h
  cases heq
  refine ⟨rfl, rfl, fun c hc => ?_, fun c hc hlt => ?_⟩
  · show (H.blocks.free b).get c = _
    rw [Cells.get_free]
    by_cases hcb : c = b
    · rw [if_pos hcb, if_pos (by simp [count, hcb])]
    · rw [if_neg hcb, if_neg (by simp [count, Ne.symm hcb])]
  · have hlt' : c < H.blocks.next := hlt
    omega

/-- One stretch after the other, if the second releases only what was there before the
first. -/
theorem trans (h : H.Changes out n H') (h' : H'.Changes out' n' H'')
    (hold : ∀ x ∈ out', x.1 < H.blocks.next) : H.Changes (out ++ out') (n + n') H'' where
  released := by rw [h'.released, h.released, List.append_assoc]
  next := by rw [h'.next, h.next, Nat.add_assoc]
  get b hb := by
    have hnext := h.next
    rw [h'.get b (by omega), h.get b hb, count_append]
    by_cases hout : 0 < count out b
    · rw [if_pos hout, if_pos (show 0 < count out b + count out' b by omega), ite_self]
    · rw [if_neg hout, show count out b = 0 by omega, Nat.zero_add]
  fresh b hb hlt := by
    by_cases hmid : b < H'.blocks.next
    · have hnot : count out' b = 0 := count_eq_zero.mpr fun x hx he => by
        have := hold x hx
        omega
      rw [h'.get b hmid, hnot, if_neg (Nat.lt_irrefl 0)]
      exact h.fresh b hb hmid
    · exact h'.fresh b (by omega) hlt

/-- Releases before allocations. -/
theorem trans_alloc (h : H.Changes out n H') (h' : H'.Changes [] n' H'') :
    H.Changes out (n + n') H'' := by
  have := h.trans h' (by simp)
  rwa [List.append_nil] at this

theorem get_of_live (h : H.Changes out n H') (hold : (H.blocks.get b).isSome)
    (hlive : (H'.blocks.get b).isSome) : H'.blocks.get b = H.blocks.get b := by
  obtain ⟨a, ha⟩ := Option.isSome_iff_exists.mp hold
  have hget := h.get b (Cells.lt_next ha)
  split at hget
  case isTrue =>
    rw [hget] at hlive
    cases hlive
  case isFalse => exact hget

theorem get_of_notMem (h : H.Changes out n H') (hold : (H.blocks.get b).isSome)
    (hout : ∀ x ∈ out, x.1 ≠ b) : H'.blocks.get b = H.blocks.get b := by
  obtain ⟨a, ha⟩ := Option.isSome_iff_exists.mp hold
  rw [h.get b (Cells.lt_next ha), count_eq_zero.mpr hout, if_neg (Nat.lt_irrefl 0)]

theorem allocated (h : H.Changes out n H') (b : ℕ) :
    H'.allocated b = H.allocated b + Heap.fresh H.blocks.next n b := by
  have hnext := h.next
  unfold Heap.allocated Heap.fresh
  split_ifs <;> omega

/-- What was there before is live unless it was released. -/
theorem live_old (h : H.Changes out n H') (hout : count out b ≤ H.live b)
    (hb : b < H.blocks.next) : H'.live b + count out b = H.live b := by
  have hget := h.get b hb
  unfold live at hout ⊢
  rw [hget]
  by_cases hpos : 0 < count out b
  · rw [if_pos hpos, Option.isSome_none, if_neg Bool.false_ne_true]
    split_ifs at hout ⊢ <;> omega
  · rw [if_neg hpos]
    omega

theorem live_new (h : H.Changes out n H') (hb : H.blocks.next ≤ b) :
    H'.live b = H'.allocated b := by
  unfold live Heap.allocated
  by_cases hlt : b < H'.blocks.next
  · rw [if_pos hlt, if_pos (h.fresh b hb hlt)]
  · rw [if_neg hlt, H'.blocks.fresh b (by omega)]
    rfl

theorem sound (h : H.Changes out n H') (hs : H.Sound) (hout : ∀ b, count out b ≤ H.live b) :
    H'.Sound := by
  intro b
  have hb := hs b
  have hle := hout b
  have hall := h.allocated b
  rw [h.released, count_append]
  by_cases hlt : b < H.blocks.next
  · have hold := h.live_old hle hlt
    have hnot : Heap.fresh H.blocks.next n b = 0 := if_neg (by omega)
    omega
  · have hnone : H.live b = 0 := by
      rw [live, H.blocks.fresh b (by omega)]
      rfl
    have hnot : H.allocated b = 0 := if_neg hlt
    have hnew := h.live_new (b := b) (by omega)
    omega

end Changes

end Heap

end PubSub.Lib
