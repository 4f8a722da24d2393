import PubSub.Queue.Interface
import Mathlib.Algebra.GroupWithZero.Nat
import Mathlib.Data.List.Basic
import Mathlib.Logic.Function.Basic

/-! The bucket queue of `psqueue_b.c`: a free list of nodes and ten lists of
nodes, one for each priority. The lists are those of `utlist.h`, whose head
knows the tail. An index into `priorities` that is not below `PRIORITIES` is
undefined behaviour, `none` here. -/

namespace PubSub.Bucket

/-- Priorities are 0-9. -/
def PRIORITIES : ℕ := 10

/-- `node_t`; `none` is a NULL message. -/
structure Node (α : Type) where
  msg : Option α

/-- `struct ps_queue_s`. -/
structure Queue (α : Type) where
  priorities : Fin PRIORITIES → List (Node α)
  available : List (Node α)
  notEmpty : Semaphore

variable {α : Type}

/-- `q->priorities[i] = l`. -/
def Queue.setPriorities (q : Queue α) (i : Fin PRIORITIES) (l : List (Node α)) : Queue α :=
  { q with priorities := fun j => if j = i then l else q.priorities j }

/-- The loop of `psNewQueue`, with `sz` nodes still to be appended. -/
def appendNodes : ℕ → Queue α → Queue α
  | 0, q => q
  | sz + 1, q => appendNodes sz { q with available := q.available ++ [⟨none⟩] }

def psNewQueue (sz : ℕ) : Queue α :=
  appendNodes sz ⟨fun _ => [], [], semaphoreInit 0⟩

/-- The loop of `bqueueGetAvailable` from index `i`, with `left` indices below
`max_prio` to go: it takes the tail of the first list that is not empty. -/
def dropLowest (q : Queue α) (i : ℕ) : ℕ → Option (QueueRet × Option (Node α) × Option α × Queue α)
  | 0 => some (.efull, none, none, q)
  | left + 1 =>
    if h : i < PRIORITIES then
      match (q.priorities ⟨i, h⟩).getLast? with
      | some n => some (.eoverflow, some ⟨none⟩, n.msg,
          q.setPriorities ⟨i, h⟩ (q.priorities ⟨i, h⟩).dropLast)
      | none => dropLowest q (i + 1) left
    else none

/-- The result code, the node, the message passed to `ps_unref_msg`, the queue. -/
def bqueueGetAvailable (q : Queue α) (maxPrio : UInt8) :
    Option (QueueRet × Option (Node α) × Option α × Queue α) :=
  match q.available with
  | n :: rest => some (.ok, some n, none, { q with available := rest })
  | [] => dropLowest q 0 maxPrio.toNat

/-- The loop of `bqueueGet`, with the indices below `i` to go, downwards. -/
def bqueueGetBelow (q : Queue α) : (i : ℕ) → i ≤ PRIORITIES → Option α × Queue α
  | 0, _ => (none, q)
  | i + 1, h =>
    match q.priorities ⟨i, h⟩ with
    | n :: rest =>
      let q := q.setPriorities ⟨i, h⟩ rest
      (n.msg, { q with available := q.available ++ [⟨none⟩] })
    | [] => bqueueGetBelow q i (by omega)

def bqueueGet (q : Queue α) : Option α × Queue α := bqueueGetBelow q PRIORITIES (Nat.le_refl _)

def bqueueInsert (q : Queue α) (n : Node α) (priority : UInt8) : Option (Queue α) :=
  if h : priority.toNat < PRIORITIES then
    some (q.setPriorities ⟨priority.toNat, h⟩ (q.priorities ⟨priority.toNat, h⟩ ++ [n]))
  else none

/-- The messages still queued are passed to `ps_unref_msg`, lowest priority first. -/
def psFreeQueue (q : Queue α) : List α :=
  (List.finRange PRIORITIES).flatMap fun i => (q.priorities i).filterMap Node.msg

def psQueuePush (q : Queue α) (msg : α) (priority : UInt8) :
    Option (QueueRet × Option α × Queue α) := do
  let (ret, n, dropped, q) ← bqueueGetAvailable q priority
  match n with
  | none => some (ret, dropped, q)
  | some n =>
    let q ← bqueueInsert q { n with msg := some msg } priority
    let q := if ret = .ok then { q with notEmpty := semaphorePost q.notEmpty } else q
    some (ret, dropped, q)

def psQueueWaiting (q : Queue α) : ℕ := semaphoreGet q.notEmpty

instance : PsQueue Queue where
  psNewQueue := psNewQueue
  psFreeQueue q := some (psFreeQueue q)
  psQueuePush := psQueuePush
  notEmpty := Queue.notEmpty
  setNotEmpty q s := { q with notEmpty := s }
  pullLocked q := some (bqueueGet q)
  psQueueWaiting := psQueueWaiting

/-! ### The content of the buckets -/

/-- The list at index `i`, or no nodes past the end of the array. -/
def Queue.row (q : Queue α) (i : ℕ) : List (Node α) :=
  if h : i < PRIORITIES then q.priorities ⟨i, h⟩ else []

/-- The messages of one list with their priority. -/
def rowItems (q : Queue α) (i : ℕ) : List (ℕ × α) :=
  (q.row i).filterMap fun n => n.msg.map (i, ·)

/-- The messages of the `n` lists from index `lo` on, highest priority first. -/
def span (q : Queue α) (lo : ℕ) : ℕ → List (ℕ × α)
  | 0 => []
  | n + 1 => rowItems q (lo + n) ++ span q lo n

/-- The messages in the order of pulls, with their priorities. -/
def contents (q : Queue α) : List (ℕ × α) := span q 0 PRIORITIES

/-- The number of nodes in the ten lists. -/
def bucketNodes (q : Queue α) : ℕ := ((List.range PRIORITIES).map fun i => (q.row i).length).sum

/-- No node in a bucket holds a NULL message. -/
def NoNull (q : Queue α) : Prop := ∀ i, ∀ n ∈ q.priorities i, n.msg.isSome

/-- `k` pulls are between the semaphore and the lock. -/
structure Inv (k : ℕ) (q : Queue α) : Prop where
  tokens : q.notEmpty.value + k = bucketNodes q
  noNull : NoNull q

theorem span_add (q : Queue α) (lo n m : ℕ) :
    span q lo (n + m) = span q (lo + n) m ++ span q lo n := by
  induction m with
  | zero => rfl
  | succ m ih => rw [← Nat.add_assoc, span, ih, span, List.append_assoc, Nat.add_assoc]

/-- The content splits at every priority. -/
theorem contents_split (q : Queue α) {p : ℕ} (hp : p ≤ PRIORITIES) :
    contents q = span q p (PRIORITIES - p) ++ span q 0 p := by
  have := span_add q 0 p (PRIORITIES - p)
  rwa [Nat.add_sub_cancel' hp, Nat.zero_add] at this

theorem span_congr {q q' : Queue α} {lo n : ℕ} (h : ∀ i, lo ≤ i → i < lo + n → q'.row i = q.row i) :
    span q' lo n = span q lo n := by
  induction n with
  | zero => rfl
  | succ n ih =>
    rw [span, span, rowItems, rowItems, h (lo + n) (by omega) (by omega),
      ih fun i h₁ h₂ => h i h₁ (by omega)]

theorem span_eq_of_priorities {q q' : Queue α} (h : q'.priorities = q.priorities) (lo n : ℕ) :
    span q' lo n = span q lo n :=
  span_congr fun i _ _ => by rw [Queue.row, Queue.row, h]

theorem span_eq_nil {q : Queue α} {lo n : ℕ} (h : ∀ i, lo ≤ i → i < lo + n → q.row i = []) :
    span q lo n = [] := by
  induction n with
  | zero => rfl
  | succ n ih =>
    rw [span, rowItems, h (lo + n) (by omega) (by omega), ih fun i h₁ h₂ => h i h₁ (by omega)]
    rfl

theorem row_lt (q : Queue α) {i : ℕ} (h : i < PRIORITIES) : q.row i = q.priorities ⟨i, h⟩ := by
  simp [Queue.row, h]

theorem row_setPriorities (q : Queue α) (i : Fin PRIORITIES) (l : List (Node α)) (j : ℕ) :
    (q.setPriorities i l).row j = if j = i then l else q.row j := by
  unfold Queue.row Queue.setPriorities
  by_cases hj : j < PRIORITIES
  · simp only [hj, ↓reduceDIte, Fin.ext_iff]
  · have : j ≠ i := by have := i.isLt; omega
    simp [hj, this]

theorem mem_rowItems {q : Queue α} {i : ℕ} {x : ℕ × α} (h : x ∈ rowItems q i) :
    x.1 = i ∧ i < PRIORITIES := by
  have hi : i < PRIORITIES := by
    by_contra hi
    simp [rowItems, Queue.row, hi] at h
  obtain ⟨n, -, hn⟩ := List.mem_filterMap.mp h
  obtain ⟨a, -, rfl⟩ := Option.map_eq_some_iff.mp hn
  exact ⟨rfl, hi⟩

theorem mem_span {q : Queue α} {lo n : ℕ} {x : ℕ × α} (h : x ∈ span q lo n) :
    lo ≤ x.1 ∧ x.1 < lo + n := by
  induction n with
  | zero => cases h
  | succ n ih =>
    rcases List.mem_append.mp h with h | h
    · have := (mem_rowItems h).1
      omega
    · have := ih h
      omega

theorem length_filterMap_msg {l : List (Node α)} (i : ℕ) (h : ∀ n ∈ l, n.msg.isSome) :
    (l.filterMap fun n => n.msg.map (i, ·)).length = l.length := by
  induction l with
  | nil => rfl
  | cons n l ih =>
    obtain ⟨a, ha⟩ := Option.isSome_iff_exists.mp (h n (by simp))
    simp [ha, ih fun m hm => h m (by simp [hm])]

theorem NoNull.row {q : Queue α} (h : NoNull q) {i : ℕ} {n : Node α} (hn : n ∈ q.row i) :
    n.msg.isSome := by
  unfold Queue.row at hn
  split at hn
  · exact h _ n hn
  · cases hn

theorem length_span {q : Queue α} (h : NoNull q) (n : ℕ) :
    (span q 0 n).length = ((List.range n).map fun i => (q.row i).length).sum := by
  induction n with
  | zero => rfl
  | succ n ih =>
    rw [span, List.length_append, ih, List.range_succ, List.map_append, List.sum_append,
      Nat.zero_add, rowItems, length_filterMap_msg n fun _ hn => h.row hn]
    simp [Nat.add_comm]

theorem length_contents {q : Queue α} (h : NoNull q) : (contents q).length = bucketNodes q :=
  length_span h PRIORITIES

theorem Inv.length {k : ℕ} {q : Queue α} (h : Inv k q) :
    q.notEmpty.value + k = (contents q).length := by
  rw [length_contents h.noNull, h.tokens]

theorem inv_iff {k : ℕ} {q : Queue α} :
    Inv k q ↔ NoNull q ∧ q.notEmpty.value + k = (contents q).length :=
  ⟨fun h => ⟨h.noNull, h.length⟩, fun ⟨hn, hl⟩ => ⟨by rw [hl, length_contents hn], hn⟩⟩

/-! ### What the operations do to the content -/

/-- A node appended to one list puts its message after those of equal priority. -/
theorem span_append_row {q q' : Queue α} {p : ℕ} {m : α} (hp : p < PRIORITIES)
    (hrow : q'.row p = q.row p ++ [⟨some m⟩]) (habove : ∀ i, p < i → q'.row i = q.row i) :
    span q' p (PRIORITIES - p) = span q p (PRIORITIES - p) ++ [(p, m)] := by
  obtain ⟨r, hr⟩ : ∃ r, PRIORITIES - p = 1 + r := ⟨PRIORITIES - p - 1, by omega⟩
  rw [hr, span_add, span_add, span_congr fun i h₁ _ => habove i (by omega)]
  simp [span, rowItems, hrow]

/-- The last message below `p` is the tail of the lowest list that is not empty. -/
theorem span_take_lowest {q : Queue α} (q' : Queue α) {j p : ℕ} {n : Node α} {e : α} {rest : List (Node α)}
    (hj : j < p) (hlow : ∀ i, i < j → q.row i = []) (hrow : q.row j = rest ++ [n])
    (hn : n.msg = some e) (hrow' : q'.row j = rest) (hother : ∀ i, i < p → i ≠ j → q'.row i = q.row i) :
    span q 0 p = span q' 0 p ++ [(j, e)] := by
  obtain ⟨r, hr⟩ : ∃ r, p = j + 1 + r := ⟨p - j - 1, by omega⟩
  have hhigh : span q' (0 + (j + 1)) r = span q (0 + (j + 1)) r :=
    span_congr fun i h₁ h₂ => hother i (by omega) (by omega)
  have hlow' : span q' 0 j = span q 0 j :=
    span_congr fun i _ h₂ => hother i (by omega) (by omega)
  have hnil : span q 0 j = [] := span_eq_nil fun i _ h₂ => hlow i (by omega)
  have hsplit : ∀ x : Queue α, span x 0 p = span x (0 + (j + 1)) r ++ (rowItems x j ++ span x 0 j) := by
    intro x
    rw [hr, span_add, span, Nat.zero_add j]
  rw [hsplit q, hsplit q', hhigh, hlow', hnil, rowItems, rowItems, hrow, hrow']
  simp [hn]

theorem appendNodes_eq (sz : ℕ) (q : Queue α) :
    appendNodes sz q = { q with available := q.available ++ List.replicate sz ⟨none⟩ } := by
  induction sz generalizing q with
  | zero => simp [appendNodes]
  | succ sz ih => simp [appendNodes, ih, List.replicate_succ]

theorem psNewQueue_eq (n : ℕ) :
    (psNewQueue n : Queue α) = ⟨fun _ => [], List.replicate n ⟨none⟩, ⟨0⟩⟩ := by
  simp [psNewQueue, appendNodes_eq, semaphoreInit]

theorem row_psNewQueue (n i : ℕ) : (psNewQueue n : Queue α).row i = [] := by
  simp [Queue.row, psNewQueue_eq]

theorem contents_psNewQueue (n : ℕ) : contents (psNewQueue n : Queue α) = [] :=
  span_eq_nil fun i _ _ => row_psNewQueue n i

theorem inv_psNewQueue (n : ℕ) : Inv 0 (psNewQueue n : Queue α) := by
  rw [inv_iff, contents_psNewQueue]
  exact ⟨by simp [NoNull, psNewQueue_eq], by simp [psNewQueue_eq]⟩

theorem dropLowest_cases {q q' : Queue α} {i left : ℕ} {ret : QueueRet} {n : Option (Node α)}
    {d : Option α} (h : dropLowest q i left = some (ret, n, d, q')) :
    (ret = .efull ∧ n = none ∧ d = none ∧ q' = q ∧
      ∀ j, i ≤ j → j < i + left → q.row j = []) ∨
    (∃ (j : ℕ) (hj : j < PRIORITIES) (nd : Node α) (rest : List (Node α)), i ≤ j ∧ j < i + left ∧
      (∀ j', i ≤ j' → j' < j → q.row j' = []) ∧ q.row j = rest ++ [nd] ∧
      ret = .eoverflow ∧ n = some ⟨none⟩ ∧ d = nd.msg ∧ q' = q.setPriorities ⟨j, hj⟩ rest) := by
  induction left generalizing i with
  | zero =>
    simp only [dropLowest, Option.some.injEq, Prod.mk.injEq] at h
    obtain ⟨rfl, rfl, rfl, rfl⟩ := h
    exact .inl ⟨rfl, rfl, rfl, rfl, fun j h₁ h₂ => by omega⟩
  | succ left ih =>
    rw [dropLowest] at h
    split at h
    case isFalse => cases h
    case isTrue hi =>
      cases hl : (q.priorities ⟨i, hi⟩).getLast? with
      | some nd =>
        obtain ⟨rest, hrest⟩ := List.getLast?_eq_some_iff.mp hl
        simp only [hl, Option.some.injEq, Prod.mk.injEq] at h
        obtain ⟨rfl, rfl, rfl, rfl⟩ := h
        exact .inr ⟨i, hi, nd, rest, Nat.le_refl _, by omega, fun j h₁ h₂ => by omega,
          by rw [row_lt q hi, hrest], rfl, rfl, rfl, by rw [hrest, List.dropLast_concat]⟩
      | none =>
        have hnil : q.row i = [] := by rw [row_lt q hi, List.getLast?_eq_none_iff.mp hl]
        rw [hl] at h
        rcases ih h with ⟨hr, hn, hd, hq, he⟩ | ⟨j, hj, nd, rest, h₁, h₂, he, hs⟩
        · refine .inl ⟨hr, hn, hd, hq, fun j h₁ h₂ => ?_⟩
          by_cases hji : j = i
          · rw [hji, hnil]
          · exact he j (by omega) (by omega)
        · refine .inr ⟨j, hj, nd, rest, by omega, by omega, fun j' h₃ h₄ => ?_, hs⟩
          by_cases hji : j' = i
          · rw [hji, hnil]
          · exact he j' (by omega) h₄

theorem dropLowest_some {q : Queue α} {i left : ℕ} (h : i + left ≤ PRIORITIES) :
    (dropLowest q i left).isSome := by
  induction left generalizing i with
  | zero => rfl
  | succ left ih =>
    rw [dropLowest, dif_pos (by omega)]
    split
    · rfl
    · exact ih (by omega)

theorem noNull_setPriorities {q : Queue α} (hn : NoNull q) (i : Fin PRIORITIES)
    {l : List (Node α)} (hl : ∀ n ∈ l, n.msg.isSome) : NoNull (q.setPriorities i l) := by
  intro j n hnj
  simp only [Queue.setPriorities] at hnj
  split at hnj
  · exact hl n hnj
  · exact hn j n hnj

/-- The node that `bqueueGetAvailable` found goes to the tail of its list. -/
theorem bqueueInsert_some {q q' : Queue α} {m : α} {p : UInt8} (hn : NoNull q)
    (h : bqueueInsert q ⟨some m⟩ p = some q') :
    p.toNat < PRIORITIES ∧ q'.available = q.available ∧ q'.notEmpty = q.notEmpty ∧ NoNull q' ∧
      contents q' = span q p.toNat (PRIORITIES - p.toNat) ++ (p.toNat, m) :: span q 0 p.toNat := by
  unfold bqueueInsert at h
  split at h
  case isFalse => cases h
  case isTrue hp =>
    cases h
    refine ⟨hp, rfl, rfl, noNull_setPriorities hn _ fun n hm => ?_, ?_⟩
    · rcases List.mem_append.mp hm with hm | hm
      · exact hn _ n hm
      · rw [List.mem_singleton.mp hm]
        rfl
    · have hlow : span (q.setPriorities ⟨p.toNat, hp⟩ (q.priorities ⟨p.toNat, hp⟩ ++ [⟨some m⟩]))
          0 p.toNat = span q 0 p.toNat :=
        span_congr fun i _ h => by rw [row_setPriorities, if_neg (by dsimp only; omega)]
      rw [contents_split _ (Nat.le_of_lt hp), hlow, span_append_row (q := q) (m := m) hp]
      · simp
      · rw [row_setPriorities, if_pos rfl, row_lt q hp]
      · intro i hi
        rw [row_setPriorities, if_neg (by dsimp only; omega)]

/-- Everything a push can do. -/
theorem psQueuePush_cases {q q' : Queue α} {m : α} {p : UInt8} {ret : QueueRet} {d : Option α}
    (hn : NoNull q) (h : psQueuePush q m p = some (ret, d, q')) :
    (∃ n, ret = .ok ∧ d = none ∧ p.toNat < PRIORITIES ∧ q.available = n :: q'.available ∧
      q'.notEmpty = semaphorePost q.notEmpty ∧ NoNull q' ∧
      contents q' = span q p.toNat (PRIORITIES - p.toNat) ++ (p.toNat, m) :: span q 0 p.toNat) ∨
    (ret = .efull ∧ d = none ∧ q.available = [] ∧ q' = q ∧ span q 0 p.toNat = []) ∨
    (∃ e low, ret = .eoverflow ∧ d = some e.2 ∧ p.toNat < PRIORITIES ∧ q.available = [] ∧
      q'.available = [] ∧ q'.notEmpty = q.notEmpty ∧ NoNull q' ∧ span q 0 p.toNat = low ++ [e] ∧
      contents q' = span q p.toNat (PRIORITIES - p.toNat) ++ (p.toNat, m) :: low) := by
  simp only [psQueuePush, Option.bind_eq_bind, Option.bind_eq_some_iff] at h
  obtain ⟨⟨ret₁, n, d₁, q₁⟩, hg, h⟩ := h
  rw [bqueueGetAvailable] at hg
  split at hg
  case h_1 nd avail hav =>
    simp only [Option.some.injEq, Prod.mk.injEq] at hg
    obtain ⟨rfl, rfl, rfl, rfl⟩ := hg
    simp only [Option.bind_eq_some_iff, ↓reduceIte, Option.some.injEq, Prod.mk.injEq] at h
    obtain ⟨q₂, hi, rfl, rfl, rfl⟩ := h
    obtain ⟨hp, ha, hs, hn', hc⟩ := bqueueInsert_some (by exact hn) hi
    have hspan : ∀ lo n, span { q with available := avail } lo n = span q lo n :=
      span_eq_of_priorities rfl
    simp only [hspan] at hc
    exact .inl ⟨nd, rfl, rfl, hp, by rw [hav, ha], by rw [hs], hn',
      (span_eq_of_priorities rfl 0 PRIORITIES).trans hc⟩
  case h_2 hav =>
    rcases dropLowest_cases hg with ⟨rfl, rfl, rfl, rfl, he⟩ |
      ⟨j, hj, nd, rest, -, hjp, he, hrow, rfl, rfl, rfl, rfl⟩
    · simp only [Option.some.injEq, Prod.mk.injEq] at h
      obtain ⟨rfl, rfl, rfl⟩ := h
      exact .inr (.inl ⟨rfl, rfl, hav, rfl, span_eq_nil he⟩)
    · have hrest : ∀ n ∈ rest, n.msg.isSome := fun n hm => hn.row (i := j) (by simp [hrow, hm])
      obtain ⟨e, hend⟩ := Option.isSome_iff_exists.mp (hn.row (i := j) (n := nd) (by simp [hrow]))
      simp only [Option.bind_eq_some_iff, reduceCtorEq, ↓reduceIte, Option.some.injEq,
        Prod.mk.injEq] at h
      obtain ⟨q₂, hi, rfl, rfl, rfl⟩ := h
      obtain ⟨hp, ha, hs, hn', hc⟩ := bqueueInsert_some (noNull_setPriorities hn _ hrest) hi
      have hlow := span_take_lowest (q.setPriorities ⟨j, hj⟩ rest) (p := p.toNat) (by omega)
        (fun i h => he i (by omega) h) hrow hend (by simp [row_setPriorities])
        (fun i _ h => by simp [row_setPriorities, h])
      have hhigh : span (q.setPriorities ⟨j, hj⟩ rest) p.toNat (PRIORITIES - p.toNat) =
          span q p.toNat (PRIORITIES - p.toNat) :=
        span_congr fun i h₁ _ => by rw [row_setPriorities, if_neg (by dsimp only; omega)]
      exact .inr (.inr ⟨(j, e), _, rfl, hend, hp, hav, ha.trans hav, hs, hn', hlow, hhigh ▸ hc⟩)

theorem psQueuePush_some {q : Queue α} (m : α) {p : UInt8} (hp : p.toNat < PRIORITIES) :
    (psQueuePush q m p).isSome := by
  have hi : ∀ (q : Queue α) (n : Node α), ∃ q', bqueueInsert q n p = some q' := by
    intro q n
    simp [bqueueInsert, hp]
  have hd : (bqueueGetAvailable q p).isSome := by
    unfold bqueueGetAvailable
    split
    · rfl
    · exact dropLowest_some (by omega)
  obtain ⟨⟨ret, n, d, q₁⟩, hg⟩ := Option.isSome_iff_exists.mp hd
  simp only [psQueuePush, hg, Option.bind_eq_bind, Option.bind_some]
  cases n with
  | none => rfl
  | some n =>
    obtain ⟨q₂, h₂⟩ := hi q₁ { n with msg := some m }
    simp [h₂]

theorem bqueueGetBelow_cases (q : Queue α) (i : ℕ) (h : i ≤ PRIORITIES) :
    ((∀ j, j < i → q.row j = []) ∧ bqueueGetBelow q i h = (none, q)) ∨
    (∃ (j : ℕ) (hj : j < PRIORITIES) (nd : Node α) (rest : List (Node α)), j < i ∧
      (∀ j', j < j' → j' < i → q.row j' = []) ∧ q.row j = nd :: rest ∧
      bqueueGetBelow q i h = (nd.msg, { q.setPriorities ⟨j, hj⟩ rest with
        available := q.available ++ [⟨none⟩] })) := by
  induction i with
  | zero => exact .inl ⟨fun j hj => by omega, rfl⟩
  | succ i ih =>
    have hrow : q.row i = q.priorities ⟨i, h⟩ := row_lt q h
    rw [bqueueGetBelow]
    split
    case h_1 nd rest hl =>
      exact .inr ⟨i, h, nd, rest, by omega, fun j h₁ h₂ => by omega, hrow.trans hl, rfl⟩
    case h_2 hl =>
      have hi : ∀ j, j < i + 1 → ¬ j < i → q.row j = [] := fun j h₁ h₂ => by
        rw [show j = i by omega, hrow, hl]
      rcases ih (by omega) with ⟨he, hg⟩ | ⟨j, hj, nd, rest, h₁, he, hs⟩
      · exact .inl ⟨fun j h₁ => by by_cases h₂ : j < i <;> simp_all, hg⟩
      · refine .inr ⟨j, hj, nd, rest, by omega, fun j' h₂ h₃ => ?_, hs⟩
        by_cases h₄ : j' < i
        · exact he j' h₂ h₄
        · exact hi j' h₃ h₄

/-- The head of the highest list that is not empty is the head of the content. -/
theorem contents_take_highest {q : Queue α} (q' : Queue α) {j : ℕ} (hj : j < PRIORITIES) {n : Node α} {m : α}
    {rest : List (Node α)} (hhigh : ∀ i, j < i → i < PRIORITIES → q.row i = [])
    (hrow : q.row j = n :: rest) (hn : n.msg = some m) (hrow' : q'.row j = rest)
    (hother : ∀ i, i ≠ j → q'.row i = q.row i) : contents q = (j, m) :: contents q' := by
  have hnil : ∀ x : Queue α, (∀ i, j < i → i < PRIORITIES → x.row i = []) →
      contents x = rowItems x j ++ span x 0 j := by
    intro x hx
    rw [contents_split x (p := j + 1) hj,
      span_eq_nil fun i h₁ h₂ => hx i (by omega) (by omega), span, Nat.zero_add]
    rfl
  have hlow : span q' 0 j = span q 0 j := span_congr fun i _ h => hother i (by omega)
  rw [hnil q hhigh, hnil q' fun i h₁ h₂ => (hother i (by omega)).trans (hhigh i h₁ h₂), hlow,
    rowItems, rowItems, hrow, hrow']
  simp [hn]

/-- Everything the critical section of a pull can do. -/
theorem bqueueGet_cases {q : Queue α} (hn : NoNull q) :
    (contents q = [] ∧ bqueueGet q = (none, q)) ∨
    (∃ x q', bqueueGet q = (some x.2, q') ∧ contents q = x :: contents q' ∧ NoNull q' ∧
      q'.available = q.available ++ [⟨none⟩] ∧ q'.notEmpty = q.notEmpty) := by
  rcases bqueueGetBelow_cases q PRIORITIES (Nat.le_refl _) with
    ⟨he, hg⟩ | ⟨j, hj, nd, rest, -, he, hrow, hg⟩
  · exact .inl ⟨span_eq_nil fun i _ h => he i (by omega), hg⟩
  · obtain ⟨m, hm⟩ := Option.isSome_iff_exists.mp (hn.row (i := j) (n := nd) (by simp [hrow]))
    have hrest : ∀ n ∈ rest, n.msg.isSome := fun n h => hn.row (i := j) (by simp [hrow, h])
    have hc := contents_take_highest (q.setPriorities ⟨j, hj⟩ rest) hj he hrow hm
      (by simp [row_setPriorities]) fun i h => by simp [row_setPriorities, h]
    refine .inr ⟨(j, m), { q.setPriorities ⟨j, hj⟩ rest with
      available := q.available ++ [⟨none⟩] }, by rw [bqueueGet, hg, hm], ?_, ?_, rfl, rfl⟩
    · exact hc.trans (congrArg _ (span_eq_of_priorities rfl 0 PRIORITIES))
    · exact noNull_setPriorities hn _ hrest

theorem rows_perm_span (q : Queue α) (n : ℕ) :
    ((List.range n).flatMap fun i => (q.row i).filterMap Node.msg).Perm
      ((span q 0 n).map Prod.snd) := by
  induction n with
  | zero => exact .refl _
  | succ n ih =>
    have hrow : (rowItems q n).map Prod.snd = (q.row n).filterMap Node.msg := by
      rw [rowItems, List.map_filterMap]
      simp [Function.comp_def]
    rw [List.range_succ, List.flatMap_append, List.flatMap_singleton, span, Nat.zero_add,
      List.map_append, hrow]
    exact List.perm_append_comm.trans (ih.append_left _)

/-- The messages that the release passes on are those that wait. -/
theorem psFreeQueue_perm (q : Queue α) : (psFreeQueue q).Perm ((contents q).map Prod.snd) := by
  have hrows : psFreeQueue q =
      (List.range PRIORITIES).flatMap fun i => (q.row i).filterMap Node.msg := by
    rw [psFreeQueue, ← List.map_coe_finRange_eq_range, List.flatMap_map]
    congr 1
    funext i
    rw [row_lt q i.isLt]
  rw [hrows]
  exact rows_perm_span q PRIORITIES

/-! ### The contract -/

/-- A node moves between the free list and the buckets; none is made or lost. -/
def capacity (q : Queue α) : ℕ := q.available.length + bucketNodes q

theorem capacity_eq {q : Queue α} (hn : NoNull q) :
    capacity q = q.available.length + (contents q).length := by
  rw [capacity, length_contents hn]

theorem push_inv {k : ℕ} {q q' : Queue α} {m : α} {p : UInt8} {ret : QueueRet} {d : Option α}
    (hq : Inv k q) (h : psQueuePush q m p = some (ret, d, q')) :
    Inv k q' ∧ capacity q' = capacity q ∧ Pushed (capacity q) ((contents q).map Prod.snd) m ret d
      ((contents q').map Prod.snd) := by
  have hl := hq.length
  rcases psQueuePush_cases hq.noNull h with ⟨n, rfl, rfl, hp, ha, hs, hn, hc⟩ |
    ⟨rfl, rfl, ha, rfl, hnil⟩ | ⟨e, low, rfl, rfl, hp, ha, ha', hs, hn, hlow, hc⟩
  · have hsplit := contents_split q (Nat.le_of_lt hp)
    have hlen : (contents q').length = (contents q).length + 1 := by
      rw [hc, hsplit]
      simp only [List.length_append, List.length_cons]
      omega
    have hcap : capacity q' = capacity q := by
      rw [capacity_eq hn, capacity_eq hq.noNull, hlen, ha, List.length_cons]
      omega
    refine ⟨inv_iff.mpr ⟨hn, by rw [hs, hlen, value_post]; omega⟩, hcap, .ok ?_ ?_⟩
    · rw [List.length_map, capacity_eq hq.noNull, ha, List.length_cons]
      omega
    · rw [hc, hsplit, List.map_append, List.map_cons, List.map_append]
      exact List.perm_middle
  · refine ⟨hq, rfl, .efull ?_⟩
    rw [List.length_map, capacity_eq hq.noNull, ha]
    simp
  · have hsplit := contents_split q (Nat.le_of_lt hp)
    have hlen : (contents q').length = (contents q).length := by
      rw [hc, hsplit, hlow]
      simp only [List.length_append, List.length_cons, List.length_nil]
    refine ⟨inv_iff.mpr ⟨hn, by rw [hs, hlen]; exact hl⟩, ?_, .eoverflow ?_ ?_⟩
    · rw [capacity_eq hn, capacity_eq hq.noNull, hlen, ha, ha']
    · rw [List.length_map, capacity_eq hq.noNull, ha]
      simp
    · rw [hc, hsplit, hlow]
      simp only [List.map_append, List.map_cons, List.map_nil, ← List.append_assoc]
      exact (List.perm_middle.cons _).trans ((List.Perm.swap _ _ _).trans
        ((List.perm_append_singleton _ _).symm.cons _))

theorem take_inv {k : ℕ} {q q' : Queue α} (hq : Inv k q) (h : takeToken q = some q') :
    Inv (k + 1) q' ∧ capacity q' = capacity q ∧
      (contents q').map Prod.snd = (contents q).map Prod.snd := by
  obtain ⟨t, ht, rfl⟩ := Option.map_eq_some_iff.mp h
  have hv := semaphoreTake_eq_some ht
  refine ⟨⟨?_, hq.noNull⟩, rfl, by rw [contents, span_eq_of_priorities rfl]; rfl⟩
  have := hq.tokens
  change t.value + (k + 1) = bucketNodes q
  change q.notEmpty.value = t.value + 1 at hv
  omega

theorem pull_inv {k : ℕ} {q : Queue α} (hq : Inv (k + 1) q) :
    ∃ m q', bqueueGet q = (some m, q') ∧ Inv k q' ∧ capacity q' = capacity q ∧
      (contents q).map Prod.snd = m :: (contents q').map Prod.snd := by
  have hl := hq.length
  rcases bqueueGet_cases hq.noNull with ⟨he, -⟩ | ⟨x, q', hg, hc, hn, ha, hs⟩
  · rw [he] at hl
    simp at hl
  · refine ⟨x.2, q', hg, inv_iff.mpr ⟨hn, ?_⟩, ?_, by rw [hc, List.map_cons]⟩
    · rw [hs]
      rw [hc, List.length_cons] at hl
      omega
    · rw [capacity_eq hn, capacity_eq hq.noNull, ha, hc]
      simp only [List.length_append, List.length_cons, List.length_nil]
      omega

instance : LawfulPsQueue Queue where
  Inv := Inv
  items q := (contents q).map Prod.snd
  capacity := capacity
  inv_new := inv_psNewQueue
  items_new n := by rw [show (PsQueue.psNewQueue n : Queue _) = psNewQueue n from rfl,
    contents_psNewQueue, List.map_nil]
  capacity_new n := by
    rw [show (PsQueue.psNewQueue n : Queue _) = psNewQueue n from rfl,
      capacity_eq (inv_psNewQueue n).noNull, contents_psNewQueue]
    simp [psNewQueue_eq]
  tokens_add h := by rw [List.length_map]; exact h.length
  length_le h := by rw [List.length_map, capacity_eq h.noNull]; omega
  push_some m _ _ hp := psQueuePush_some m hp
  push_inv := push_inv
  take_inv := take_inv
  set_notEmpty _ := rfl
  pull_inv h := by
    obtain ⟨m, q', hg, h⟩ := pull_inv h
    exact ⟨m, q', congrArg some hg, h⟩
  waiting_eq h := by rw [List.length_map]; exact h.length
  free_empty {α k q} h he := by
    have hperm := psFreeQueue_perm q
    rw [he] at hperm
    exact congrArg some hperm.eq_nil

end PubSub.Bucket
