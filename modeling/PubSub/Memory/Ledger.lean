import PubSub.Memory.State

/-! The account of the blocks: whoever has to release a block, a client or one field of
one message, has to do so once, and nobody does for what was released. -/

namespace PubSub

open Lib

namespace Memory

variable {addr : BlockId → UInt64} {M M' : Memory} {mine mine' : BlockId → Bool} {i j : MsgId}
  {n : ℕ} {out : List (BlockId × PsDtor)} {given : List (BlockId × Option PsDtor)} {b : BlockId}

/-- How many fields of messages are to release the block. -/
def due (M : Memory) (b : BlockId) : ℕ := M.msgs.sum fun m => duties m.blocks b

/-- How many fields of messages have the block without a destructor. -/
def lent (M : Memory) (b : BlockId) : ℕ := M.msgs.sum fun m => loans m.blocks b

theorem owners_eq (M : Memory) (b : BlockId) : M.owners b = M.due b + M.lent b := by
  unfold owners due lent Cells.sum
  rw [← Finset.sum_add_distrib]
  apply Finset.sum_congr rfl
  intro i _
  cases M.msgs.get i with
  | none => rfl
  | some m => exact count_blocks m.blocks b

/-- The account. The blocks in `mine` are for the clients to release; of the others, each
is due in one field of one message or was released once. A block in a field without a
destructor is a client's, and in one field only. -/
structure Ledger (M : Memory) (mine : BlockId → Bool) : Prop where
  sound : M.heap.Sound
  one : ∀ b, (mine b).toNat + M.due b + Heap.count M.heap.released b = M.heap.allocated b
  lent : ∀ b, M.lent b ≤ (mine b).toNat

namespace Ledger

theorem start : Memory.start.Ledger fun _ => false where
  sound := Heap.Sound.empty
  one _ := rfl
  lent _ := le_rfl

theorem allocated_le (H : Blocks) (b : BlockId) : H.allocated b ≤ 1 := by
  unfold Heap.allocated
  split <;> omega

theorem toNat_le (x : Bool) : x.toNat ≤ 1 := by cases x <;> decide

/-- A block is in at most one field. -/
theorem owners_le (hl : M.Ledger mine) (b : BlockId) : M.owners b ≤ 1 := by
  have hone := hl.one b
  have hlent := hl.lent b
  have hmax := allocated_le M.heap b
  have hbool := toNat_le (mine b)
  rw [owners_eq]
  omega

/-- A block in a field is live. -/
theorem owners_le_live (hl : M.Ledger mine) (b : BlockId) : M.owners b ≤ M.heap.live b := by
  have hone := hl.one b
  have hlent := hl.lent b
  have hsound := hl.sound b
  have hle := hl.owners_le b
  rw [owners_eq] at hle ⊢
  omega

theorem count_le_owners {m : RawMsg} (hm : M.msgs.get i = some m) (b : BlockId) :
    (m.blocks.countP fun x => x.1 = b) ≤ M.owners b :=
  Cells.le_sum hm fun m : RawMsg => m.blocks.countP fun x => x.1 = b

theorem live (hl : M.Ledger mine) {m : RawMsg} (hm : M.msgs.get i = some m) :
    ∀ x ∈ m.blocks, (M.heap.blocks.get x.1).isSome := by
  intro x hx
  have hpos : 0 < m.blocks.countP fun y => y.1 = x.1 := List.countP_pos_iff.mpr ⟨x, hx, by simp⟩
  have hle := count_le_owners hm x.1
  have hlive := hl.owners_le_live x.1
  have hone := hl.owners_le x.1
  apply Heap.live_eq_one.mp
  have hmax : M.heap.live x.1 ≤ 1 := by
    unfold Heap.live
    split <;> omega
  omega

theorem separate (hl : M.Ledger mine) {m : RawMsg} (hm : M.msgs.get i = some m) :
    Separate m.blocks := by
  unfold Separate
  rw [List.nodup_iff_count_le_one]
  intro b
  have hle := (count_le_owners hm b).trans (hl.owners_le b)
  rw [List.count, List.countP_map]
  exact hle

/-- Two messages have no block in common. -/
theorem apart (hl : M.Ledger mine) {m m' : RawMsg} (hij : i ≠ j) (hm : M.msgs.get i = some m)
    (hm' : M.msgs.get j = some m') : ∀ x ∈ m.blocks, ∀ y ∈ m'.blocks, x.1 ≠ y.1 := by
  intro x hx y hy he
  have hx' : 0 < m.blocks.countP fun z => z.1 = x.1 := List.countP_pos_iff.mpr ⟨x, hx, by simp⟩
  have hy' : 0 < m'.blocks.countP fun z => z.1 = x.1 := List.countP_pos_iff.mpr ⟨y, hy, by simp [he]⟩
  have hrest : (M.msgs.free i).get j = some m' := by
    rw [Cells.get_free, if_neg hij.symm, hm']
  have hsum := Cells.sum_free hm fun m : RawMsg => m.blocks.countP fun z => z.1 = x.1
  have hle := Cells.le_sum hrest fun m : RawMsg => m.blocks.countP fun z => z.1 = x.1
  have hone := hl.owners_le x.1
  unfold owners at hone
  omega

/-- A block that no message owns is in no message. -/
theorem ne_of_owners {m : RawMsg} (hm : M.msgs.get i = some m) (hb : M.owners b = 0) :
    ∀ x ∈ m.blocks, x.1 ≠ b := by
  rintro x hx rfl
  have hpos : 0 < m.blocks.countP fun y => y.1 = x.1 := List.countP_pos_iff.mpr ⟨x, hx, by simp⟩
  have hle := count_le_owners hm x.1
  omega

/-- Some blocks are released, some are allocated, and whoever is to release them changes
accordingly. -/
theorem change (hl : M.Ledger mine) (hc : M.heap.Changes out n M'.heap)
    (hout : ∀ b, Heap.count out b ≤ M.due b)
    (hone : ∀ b, (mine' b).toNat + M'.due b + Heap.count out b =
      (mine b).toNat + M.due b + Heap.fresh M.heap.blocks.next n b)
    (hlent : ∀ b, M'.lent b ≤ (mine' b).toNat) : M'.Ledger mine' where
  sound := hc.sound hl.sound fun b => by
    have hb := hl.one b
    have hs := hl.sound b
    have hle := hout b
    omega
  one b := by
    have hb := hl.one b
    have hb' := hone b
    rw [hc.allocated, hc.released, Heap.count_append]
    omega
  lent := hlent

end Ledger

/-! ### One message -/

/-- What the message says, if it exists and can be read. -/
def content (addr : BlockId → UInt64) (M : Memory) (i : MsgId) : Option PsMsg :=
  (M.msgs.get i).bind fun m => m.load addr M.heap

def blocksOf (M : Memory) (i : MsgId) : List (BlockId × Option PsDtor) :=
  (M.msgs.get i).elim [] RawMsg.blocks

/-- All messages but `i` are where they were. -/
structure Only (M : Memory) (i : MsgId) (M' : Memory) : Prop where
  others : ∀ j, j ≠ i → M'.msgs.get j = M.msgs.get j
  sum : ∀ f : RawMsg → ℕ,
    M'.msgs.sum f + (M.msgs.get i).elim 0 f = M.msgs.sum f + (M'.msgs.get i).elim 0 f

namespace Only

theorem set {m : RawMsg} (hm : M.msgs.get i = some m) (o : Option RawMsg)
    (hM' : M'.msgs = M.msgs.set i o) : M.Only i M' where
  others j hj := by rw [hM', Cells.get_set hm, if_neg hj]
  sum f := by
    rw [hM', hm, Cells.get_set hm, if_pos rfl]
    exact Cells.sum_set hm o f

theorem alloc (m : RawMsg) (hM' : M'.msgs = M.msgs.alloc m) : M.Only M.msgs.next M' where
  others j hj := by rw [hM', Cells.get_alloc, if_neg hj]
  sum f := by rw [hM', Cells.get_alloc_self, Cells.get_next, Cells.sum_alloc]; rfl

theorem free {m : RawMsg} (hm : M.msgs.get i = some m) (hM' : M'.msgs = M.msgs.free i) :
    M.Only i M' where
  others j hj := by rw [hM', Cells.get_free, if_neg hj]
  sum f := by
    rw [hM', hm, Cells.get_free, if_pos rfl]
    exact Cells.sum_free hm f

theorem due (h : M.Only i M') (b : BlockId) :
    M'.due b + duties (M.blocksOf i) b = M.due b + duties (M'.blocksOf i) b := by
  have hcount : ∀ o : Option RawMsg,
      o.elim 0 (fun m => duties m.blocks b) = duties (o.elim [] RawMsg.blocks) b := by
    intro o
    cases o <;> rfl
  have hsum := h.sum fun m => duties m.blocks b
  rwa [hcount, hcount] at hsum

theorem lent (h : M.Only i M') (b : BlockId) :
    M'.lent b + loans (M.blocksOf i) b = M.lent b + loans (M'.blocksOf i) b := by
  have hcount : ∀ o : Option RawMsg,
      o.elim 0 (fun m => loans m.blocks b) = loans (o.elim [] RawMsg.blocks) b := by
    intro o
    cases o <;> rfl
  have hsum := h.sum fun m => loans m.blocks b
  rwa [hcount, hcount] at hsum

/-- The other messages say what they said. -/
theorem content (h : M.Only i M') (hl : M.Ledger mine) (hl' : M'.Ledger mine')
    (hc : M.heap.Changes out n M'.heap) (hj : j ≠ i) : M'.content addr j = M.content addr j := by
  unfold Memory.content
  have hget := h.others j hj
  rw [hget]
  cases hm : M.msgs.get j with
  | none => rfl
  | some m =>
    rw [hm] at hget
    exact RawMsg.load_congr fun x hx => hc.get_of_live (hl.live hm x hx) (hl'.live hget x hx)

end Only

/-- The account after a change of the blocks of one message, which may have taken some. -/
theorem Ledger.only (hl : M.Ledger mine) (ho : M.Only i M') (hc : M.heap.Changes out n M'.heap)
    (hout : ∀ b, Heap.count out b ≤ duties (M.blocksOf i) b)
    (hduties : ∀ b, duties (M'.blocksOf i) b + Heap.count out b =
      duties (M.blocksOf i) b + Heap.fresh M.heap.blocks.next n b + duties given b)
    (hloans : ∀ b, loans (M'.blocksOf i) b ≤ loans (M.blocksOf i) b + loans given b)
    (hgiven : ∀ b, duties given b + loans given b + M.lent b ≤ (mine b).toNat) :
    M'.Ledger fun b => mine b && duties given b = 0 := by
  have htaken : ∀ b, (mine b && decide (duties given b = 0)).toNat + duties given b =
      (mine b).toNat := by
    intro b
    have hle := hgiven b
    have hmax := toNat_le (mine b)
    by_cases hzero : duties given b = 0
    · simp [hzero]
    · simp only [hzero, decide_false, Bool.and_false, Bool.toNat_false]
      omega
  apply hl.change hc
  · intro b
    have hle := hout b
    have hdue := ho.due b
    have hb := hduties b
    have hblocks : duties (M.blocksOf i) b ≤ M.due b := by
      unfold blocksOf
      cases hm : M.msgs.get i with
      | none => exact Nat.zero_le _
      | some m => exact Cells.le_sum hm fun m : RawMsg => duties m.blocks b
    omega
  · intro b
    have hb := htaken b
    have hdue := ho.due b
    have hd := hduties b
    omega
  · intro b
    have hb := htaken b
    have hle := hgiven b
    have hlent := ho.lent b
    have hlo := hloans b
    omega

end Memory

end PubSub
