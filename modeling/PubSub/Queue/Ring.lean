import PubSub.Queue.Interface
import Mathlib.Data.List.Basic

/-! The ring queue of `psqueue_ll.c`: an array of messages with a head where the
next push writes, a tail where the next pull reads, and a count. It knows no
priorities. An index past the end of the array is undefined behaviour, `none`
here. -/

namespace PubSub.Ring

/-- `struct ps_queue_s`; a `none` in the array is a NULL message. -/
structure Queue (α : Type) where
  messages : List (Option α)
  size : ℕ
  count : ℕ
  head : ℕ
  tail : ℕ
  notEmpty : Semaphore

variable {α : Type}

def psNewQueue (sz : ℕ) : Queue α := ⟨List.replicate sz none, sz, 0, 0, 0, semaphoreInit 0⟩

/-- Only the array is freed: no message is passed to `ps_unref_msg`. -/
def psFreeQueue (_ : Queue α) : List α := []

def psQueuePush (q : Queue α) (msg : α) (_priority : UInt8) :
    Option (QueueRet × Option α × Queue α) :=
  if q.count ≥ q.size then some (.efull, none, q)
  else if q.head < q.messages.length then
    some (.ok, none, { q with
      messages := q.messages.set q.head (some msg)
      head := if q.head + 1 ≥ q.size then 0 else q.head + 1
      count := q.count + 1
      notEmpty := semaphorePost q.notEmpty })
  else none

/-- The critical section of `ps_queue_pull`. -/
def pullLocked (q : Queue α) : Option (Option α × Queue α) := do
  let msg ← q.messages[q.tail]?
  some (msg, { q with
    tail := if q.tail + 1 ≥ q.size then 0 else q.tail + 1
    count := q.count - 1 })

def psQueueWaiting (q : Queue α) : ℕ := q.count

instance : PsQueue Queue where
  psNewQueue := psNewQueue
  psFreeQueue q := some (psFreeQueue q)
  psQueuePush := psQueuePush
  notEmpty := Queue.notEmpty
  setNotEmpty q s := { q with notEmpty := s }
  pullLocked := pullLocked
  psQueueWaiting := psQueueWaiting

/-! ### The content of the ring -/

/-- The message `i` places after the tail. -/
def cell (q : Queue α) (i : ℕ) : Option α := (q.messages[(q.tail + i) % q.size]?).join

/-- The messages in the order of pulls. -/
def contents (q : Queue α) : List α := (List.range q.count).filterMap (cell q)

/-- `k` pulls are between the semaphore and the lock. -/
structure Inv (k : ℕ) (q : Queue α) : Prop where
  length : q.messages.length = q.size
  count_le : q.count ≤ q.size
  tail_lt : 0 < q.size → q.tail < q.size
  head_eq : 0 < q.size → q.head = (q.tail + q.count) % q.size
  tokens : q.notEmpty.value + k = q.count
  cells : ∀ i, i < q.count → (cell q i).isSome

theorem length_filterMap_range {f : ℕ → Option α} {n : ℕ} (h : ∀ i, i < n → (f i).isSome) :
    ((List.range n).filterMap f).length = n := by
  induction n with
  | zero => rfl
  | succ n ih =>
    obtain ⟨a, ha⟩ := Option.isSome_iff_exists.mp (h n (by omega))
    rw [List.range_succ, List.filterMap_append, List.length_append, ih fun i hi => h i (by omega)]
    simp [ha]

theorem Inv.length_contents {k : ℕ} {q : Queue α} (h : Inv k q) : (contents q).length = q.count :=
  length_filterMap_range h.cells

/-- The step of an index round the ring. -/
theorem wrap_eq {n i : ℕ} (hi : i < n) : (if i + 1 ≥ n then 0 else i + 1) = (i + 1) % n := by
  split
  · rw [show i + 1 = n by omega, Nat.mod_self]
  · rw [Nat.mod_eq_of_lt (by omega)]

/-- Two places less than one round apart are different cells. -/
theorem place_ne {n t i j : ℕ} (hij : i < j) (hj : j < n) : (t + i) % n ≠ (t + j) % n := by
  intro h
  have hd : n ∣ t + j - (t + i) := Nat.dvd_of_mod_eq_zero (Nat.sub_mod_eq_zero_of_mod_eq h.symm)
  have := Nat.le_of_dvd (by omega) hd
  omega

theorem cell_push {q : Queue α} {m : α} {hd c : ℕ} {s : Semaphore} (hl : q.messages.length = q.size)
    (hc : q.count < q.size) (hh : q.head = (q.tail + q.count) % q.size) {i : ℕ}
    (hi : i ≤ q.count) :
    cell { q with messages := q.messages.set q.head (some m), head := hd, count := c, notEmpty := s } i =
      if i = q.count then some m else cell q i := by
  simp only [cell]
  split
  case isTrue h =>
    subst h
    rw [← hh, List.getElem?_set_self]
    · rfl
    · rw [hl, hh]
      exact Nat.mod_lt _ (by omega)
  case isFalse h =>
    rw [List.getElem?_set_ne]
    rw [hh]
    exact (place_ne (by omega) hc).symm

theorem psQueuePush_cases {k : ℕ} {q q' : Queue α} {m : α} {p : UInt8} {ret : QueueRet}
    {d : Option α} (hq : Inv k q) (h : psQueuePush q m p = some (ret, d, q')) :
    (ret = .efull ∧ d = none ∧ q' = q ∧ q.count = q.size) ∨
    (ret = .ok ∧ d = none ∧ q.count < q.size ∧ Inv k q' ∧ q'.size = q.size ∧
      contents q' = contents q ++ [m]) := by
  unfold psQueuePush at h
  split at h
  case isTrue hfull =>
    cases h
    exact .inl ⟨rfl, rfl, rfl, Nat.le_antisymm hq.count_le hfull⟩
  case isFalse hroom =>
    have hc : q.count < q.size := by omega
    have hh := hq.head_eq (by omega)
    have hlt : q.head < q.size := hh ▸ Nat.mod_lt _ (by omega)
    rw [if_pos (by rw [hq.length]; exact hlt)] at h
    simp only [Option.some.injEq, Prod.mk.injEq] at h
    obtain ⟨rfl, rfl, rfl⟩ := h
    refine .inr ⟨rfl, rfl, hc, ⟨?_, hc, hq.tail_lt, fun _ => ?_, ?_, fun i hi => ?_⟩, rfl, ?_⟩
    · simp [hq.length]
    · dsimp only
      rw [wrap_eq hlt, hh, Nat.mod_add_mod, Nat.add_assoc]
    · have := hq.tokens
      simp only [value_post]
      omega
    · rw [cell_push hq.length hc hh (Nat.le_of_lt_succ hi)]
      split
      · rfl
      · exact hq.cells i (by dsimp only at hi; omega)
    · rw [contents, contents, List.range_succ, List.filterMap_append]
      congr 1
      · refine List.filterMap_congr fun i hi => ?_
        have hi := List.mem_range.mp hi
        rw [cell_push hq.length hc hh (by omega), if_neg (by omega)]
      · rw [List.filterMap_cons, cell_push hq.length hc hh (Nat.le_refl _), if_pos rfl]
        rfl

theorem pullLocked_cases {k : ℕ} {q : Queue α} (hq : Inv (k + 1) q) :
    ∃ m q', pullLocked q = some (some m, q') ∧ Inv k q' ∧ q'.size = q.size ∧
      contents q = m :: contents q' := by
  have hpos : 0 < q.count := by have := hq.tokens; omega
  have hsize : 0 < q.size := by have := hq.count_le; omega
  have ht := hq.tail_lt hsize
  obtain ⟨m, hm⟩ := Option.isSome_iff_exists.mp (hq.cells 0 hpos)
  have hget : q.messages[q.tail]? = some (some m) := by
    have h : cell q 0 = (q.messages[q.tail]?).join := by
      rw [cell, Nat.add_zero, Nat.mod_eq_of_lt ht]
    rw [h] at hm
    exact Option.join_eq_some_iff.mp hm
  have hcell : ∀ c i, cell { q with
      tail := if q.tail + 1 ≥ q.size then 0 else q.tail + 1, count := c } i = cell q (i + 1) := by
    intro c i
    simp only [cell]
    rw [wrap_eq ht, Nat.mod_add_mod, show q.tail + 1 + i = q.tail + (i + 1) by omega]
  refine ⟨m, { q with
    tail := if q.tail + 1 ≥ q.size then 0 else q.tail + 1, count := q.count - 1 },
    by rw [pullLocked, hget]; rfl,
    ⟨hq.length, ?_, fun _ => ?_, fun _ => ?_, ?_, fun i hi => ?_⟩, rfl, ?_⟩
  · have := hq.count_le
    dsimp only
    omega
  · dsimp only
    rw [wrap_eq ht]
    exact Nat.mod_lt _ hsize
  · dsimp only
    rw [wrap_eq ht, Nat.mod_add_mod, hq.head_eq hsize,
      show q.tail + 1 + (q.count - 1) = q.tail + q.count by omega]
  · have := hq.tokens
    dsimp only
    omega
  · dsimp only at hi
    rw [hcell]
    exact hq.cells (i + 1) (by omega)
  · obtain ⟨c, hc⟩ : ∃ c, q.count = c + 1 := ⟨q.count - 1, by omega⟩
    have hrest : contents { q with
        tail := if q.tail + 1 ≥ q.size then 0 else q.tail + 1, count := q.count - 1 } =
        (List.range c).filterMap fun i => cell q (i + 1) := by
      rw [contents]
      dsimp only
      rw [hc, Nat.add_sub_cancel]
      exact List.filterMap_congr fun i _ => hcell _ i
    rw [hrest, contents, hc, List.range_succ_eq_map, List.filterMap_cons_some hm,
      List.filterMap_map]
    rfl

theorem contents_psNewQueue (n : ℕ) : contents (psNewQueue n : Queue α) = [] := rfl

theorem inv_psNewQueue (n : ℕ) : Inv 0 (psNewQueue n : Queue α) where
  length := List.length_replicate
  count_le := Nat.zero_le _
  tail_lt h := h
  head_eq _ := (Nat.zero_mod _).symm
  tokens := rfl
  cells _ hi := absurd hi (Nat.not_lt_zero _)

theorem psQueuePush_some {k : ℕ} {q : Queue α} (hq : Inv k q) (m : α) (p : UInt8) :
    (psQueuePush q m p).isSome := by
  unfold psQueuePush
  split
  · rfl
  · rw [if_pos]
    · rfl
    · rw [hq.length, hq.head_eq (by omega)]
      exact Nat.mod_lt _ (by omega)

theorem take_inv {k : ℕ} {q q' : Queue α} (hq : Inv k q) (h : takeToken q = some q') :
    Inv (k + 1) q' ∧ q'.size = q.size ∧ contents q' = contents q := by
  obtain ⟨t, ht, rfl⟩ := Option.map_eq_some_iff.mp h
  have hv : q.notEmpty.value = t.value + 1 := semaphoreTake_eq_some ht
  have htok := hq.tokens
  refine ⟨⟨hq.length, hq.count_le, hq.tail_lt, hq.head_eq, ?_, hq.cells⟩, rfl, rfl⟩
  change t.value + (k + 1) = q.count
  omega

instance : LawfulPsQueue Queue where
  Inv := Inv
  items := contents
  capacity := Queue.size
  inv_new := inv_psNewQueue
  items_new := contents_psNewQueue
  capacity_new _ := rfl
  tokens_add h := by rw [h.length_contents]; exact h.tokens
  length_le h := by rw [h.length_contents]; exact h.count_le
  push_some m p h _ := psQueuePush_some h m p
  push_inv hq h := by
    rcases psQueuePush_cases hq h with ⟨rfl, rfl, rfl, hfull⟩ | ⟨rfl, rfl, hc, hinv, hs, hi⟩
    · exact ⟨hq, rfl, .efull (hq.length_contents.trans hfull)⟩
    · exact ⟨hinv, hs, .ok (hq.length_contents ▸ hc) (hi ▸ List.perm_append_singleton _ _)⟩
  take_inv := take_inv
  set_notEmpty _ := rfl
  pull_inv := pullLocked_cases
  waiting_eq h := h.length_contents.symm
  free_empty _ _ := rfl

end PubSub.Ring
