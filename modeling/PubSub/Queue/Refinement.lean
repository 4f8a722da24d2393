import PubSub.Lib.BoundedInsert
import PubSub.Lib.Runs
import PubSub.Queue.Bucket

/-! The bucket queue against a bounded stable priority queue. The reference keeps
one list in order, higher priority first and then earlier arrival, and a push
that makes it too long takes the last element out. Every run of pushes, pulls
and waiting counts gives the same results on both, and the content of the
buckets is the reference list. -/

namespace PubSub

open Lib PsQueue

/-- The calls of `psqueue.h` on one queue; the pull does not block. -/
inductive QueueOp (α : Type) where
  | push (msg : α) (priority : UInt8)
  | pull
  | waiting

/-- What a call gives back; a push also what the queue passed to `ps_unref_msg`. -/
inductive QueueRes (α : Type) where
  | pushed (ret : QueueRet) (dropped : Option α)
  | pulled (msg : Option α)
  | count (n : ℕ)

section Session
variable {Q : Type → Type} [PsQueue Q] {α : Type}

def queueStep (q : Q α) : QueueOp α → Option (QueueRes α × Q α)
  | .push m p => (psQueuePush q m p).map fun (ret, d, q) => (.pushed ret d, q)
  | .pull => (psQueuePull q 0).map fun (m, q) => (.pulled m, q)
  | .waiting => some (.count (psQueueWaiting q), q)

end Session

def QueueOp.InRange {α : Type} : QueueOp α → Prop
  | .push _ p => p ≤ 9
  | _ => True

/-! ### The reference -/

/-- A waiting message with its priority and the time of its push. -/
structure Item (α : Type) where
  priority : ℕ
  arrival : ℕ
  msg : α

variable {α : Type}

/-- Higher priority first, then earlier arrival. -/
def Item.Before (a b : Item α) : Prop :=
  b.priority < a.priority ∨ (b.priority = a.priority ∧ a.arrival ≤ b.arrival)

instance : DecidableRel (Item.Before (α := α)) := fun a b =>
  inferInstanceAs (Decidable (b.priority < a.priority ∨ (b.priority = a.priority ∧ a.arrival ≤ b.arrival)))

instance : Std.Total (Item.Before (α := α)) where
  total a b := by unfold Item.Before; omega

instance : IsTrans (Item α) Item.Before where
  trans a b c h₁ h₂ := by unfold Item.Before at *; omega

/-- The reference list and the number of pushes so far. -/
structure Reference (α : Type) where
  items : List (Item α)
  clock : ℕ

/-- The code says whether an element came out, and whether it is the new one. -/
def Reference.push (n : ℕ) (r : Reference α) (m : α) (p : ℕ) : QueueRes α × Reference α :=
  let (items, out) := boundedInsert Item.Before n ⟨p, r.clock, m⟩ r.items
  let res := match out with
    | none => .pushed .ok none
    | some x => if x.arrival = r.clock then .pushed .efull none else .pushed .eoverflow (some x.msg)
  (res, ⟨items, r.clock + 1⟩)

def Reference.step (n : ℕ) (r : Reference α) : QueueOp α → QueueRes α × Reference α
  | .push m p => r.push n m p.toNat
  | .pull => (.pulled (r.items.head?.map Item.msg), { r with items := r.items.tail })
  | .waiting => (.count r.items.length, r)

/-! ### The simulation -/

namespace Bucket

/-- The queue of capacity `n` holds the reference list. -/
structure Simulates (n : ℕ) (q : Queue α) (r : Reference α) : Prop where
  inv : Inv 0 q
  capacity : capacity q = n
  contents : contents q = r.items.map fun x => (x.priority, x.msg)
  sorted : r.items.Pairwise Item.Before
  clock : ∀ x ∈ r.items, x.arrival < r.clock

theorem simulates_new (n : ℕ) : Simulates n (psNewQueue n : Queue α) ⟨[], 0⟩ where
  inv := inv_psNewQueue n
  capacity := LawfulPsQueue.capacity_new (Q := Queue) n
  contents := contents_psNewQueue n
  sorted := List.Pairwise.nil
  clock := by simp

variable {n : ℕ} {q : Queue α} {r : Reference α}

/-- The reference list splits where a push of priority `p` goes in. -/
theorem Simulates.split (h : Simulates n q r) {p : ℕ} (hp : p ≤ PRIORITIES) (m : α) :
    ∃ hi lo, r.items = hi ++ lo ∧ span q p (PRIORITIES - p) = hi.map (fun x => (x.priority, x.msg)) ∧
      span q 0 p = lo.map (fun x => (x.priority, x.msg)) ∧
      (∀ x ∈ hi, ¬ Item.Before ⟨p, r.clock, m⟩ x) ∧ (∀ x ∈ lo, Item.Before ⟨p, r.clock, m⟩ x) := by
  have hc := h.contents
  rw [contents_split q hp] at hc
  obtain ⟨hi, lo, hs, hhi, hlo⟩ := List.map_eq_append_iff.mp hc.symm
  refine ⟨hi, lo, hs, hhi.symm, hlo.symm, fun x hx => ?_, fun x hx => ?_⟩
  · have hm : (x.priority, x.msg) ∈ span q p (PRIORITIES - p) := hhi ▸ List.mem_map_of_mem hx
    have h₁ := (mem_span hm).1
    have h₂ := h.clock x (hs ▸ List.mem_append_left _ hx)
    dsimp only at h₁
    unfold Item.Before
    dsimp only
    omega
  · have hm : (x.priority, x.msg) ∈ span q 0 p := hlo ▸ List.mem_map_of_mem hx
    have h₁ := (mem_span hm).2
    dsimp only at h₁
    exact .inl (by dsimp only; omega)

theorem Simulates.length (h : Simulates n q r) : r.items.length = (Bucket.contents q).length := by
  rw [h.contents, List.length_map]

theorem clock_boundedInsert {m : α} {p : ℕ} (hc : ∀ x ∈ r.items, x.arrival < r.clock) :
    ∀ x ∈ (boundedInsert Item.Before n ⟨p, r.clock, m⟩ r.items).1, x.arrival < r.clock + 1 := by
  intro x hx
  have hm : x ∈ r.items.orderedInsert Item.Before ⟨p, r.clock, m⟩ := by
    unfold boundedInsert at hx
    dsimp only at hx
    split at hx
    · exact (List.dropLast_sublist _).mem hx
    · exact hx
  rcases (List.mem_orderedInsert _).mp hm with rfl | hx
  · exact Nat.lt_succ_self _
  · exact Nat.lt_succ_of_lt (hc x hx)

/-- A push does to the buckets what the insertion does to the list. -/
theorem Simulates.push (h : Simulates n q r) {m : α} {p : UInt8} (hp : p.toNat < PRIORITIES) :
    ∃ ret d q', psQueuePush q m p = some (ret, d, q') ∧
      (r.push n m p.toNat).1 = .pushed ret d ∧ Simulates n q' (r.push n m p.toNat).2 := by
  obtain ⟨⟨ret, d, q'⟩, hpush⟩ := Option.isSome_iff_exists.mp (psQueuePush_some (q := q) m hp)
  obtain ⟨hi, lo, hs, hhi, hlo, habove, hbelow⟩ := h.split (Nat.le_of_lt hp) m
  obtain ⟨hinv, hcap, -⟩ := push_inv h.inv hpush
  have hcapq := capacity_eq h.inv.noNull
  have hlen := h.length
  have hsorted := boundedInsert_pairwise (n := n) (e := ⟨p.toNat, r.clock, m⟩) h.sorted
  have hclock := clock_boundedInsert (n := n) (m := m) (p := p.toNat) h.clock
  have hn := h.capacity
  refine ⟨ret, d, q', hpush, ?_⟩
  suffices hins : (r.push n m p.toNat).1 = .pushed ret d ∧
      Bucket.contents q' = (r.push n m p.toNat).2.items.map fun x => (x.priority, x.msg) from
    ⟨hins.1, hinv, hcap.trans hn, hins.2, hsorted, hclock⟩
  rcases psQueuePush_cases h.inv.noNull hpush with ⟨nd, rfl, rfl, -, ha, -, -, hc⟩ |
    ⟨rfl, rfl, ha, rfl, hnil⟩ | ⟨e, low, rfl, rfl, -, ha, -, -, -, hlow, hc⟩
  · have hroom : (hi ++ lo).length < n := by
      rw [← hs, hlen, ← hn, hcapq, ha, List.length_cons]
      omega
    simp only [Reference.push, hs, boundedInsert_room habove hbelow hroom, true_and]
    rw [hc, hhi, hlo, List.map_append, List.map_cons]
  · have hlo' : lo = [] := List.map_eq_nil_iff.mp (hlo.symm.trans hnil)
    rw [hlo', List.append_nil] at hs
    have hfull : n ≤ hi.length := by
      rw [← hs, hlen, ← hn, hcapq, ha, List.length_nil]
      omega
    simp only [Reference.push, hs, boundedInsert_reject habove hfull, if_true, true_and]
    rw [h.contents, hs]
  · obtain ⟨lo', last, rfl, hlo', hlast⟩ := List.map_eq_append_iff.mp (hlo.symm.trans hlow)
    obtain ⟨x, rfl, rfl⟩ := List.map_eq_singleton_iff.mp hlast
    have hfull : n ≤ (hi ++ (lo' ++ [x])).length := by
      rw [← hs, hlen, ← hn, hcapq, ha, List.length_nil]
      omega
    have hx : x.arrival ≠ r.clock := (h.clock x (hs ▸ by simp)).ne
    simp only [Reference.push, hs, hx, if_false, true_and,
      boundedInsert_evict habove (fun y hy => hbelow y (by simp [hy])) (hbelow x (by simp)) hfull]
    rw [hc, hhi, ← hlo', List.map_append, List.map_cons]

theorem psQueuePull_eq (h : Inv 0 q) :
    psQueuePull q 0 = match q.notEmpty.value with
      | 0 => some (none, q)
      | v + 1 => some (bqueueGet { q with notEmpty := ⟨v⟩ }) := by
  obtain ⟨p, a, ⟨v⟩⟩ := q
  cases v <;> rfl

theorem Simulates.pull (h : Simulates n q r) :
    ∃ q', psQueuePull q 0 = some (r.items.head?.map Item.msg, q') ∧
      Simulates n q' { r with items := r.items.tail } := by
  have htok := h.inv.length
  rw [psQueuePull_eq h.inv]
  split
  case h_1 hv =>
    have hnil : r.items = [] := by
      rw [← List.length_eq_zero_iff, h.length]
      omega
    refine ⟨q, by rw [hnil]; rfl, h.inv, h.capacity, by rw [h.contents, hnil]; rfl, ?_, ?_⟩
    · simp [hnil]
    · simp [hnil]
  case h_2 v hv =>
    have htaken : takeToken q = some { q with notEmpty := ⟨v⟩ } := by
      change (semaphoreTake q.notEmpty).map _ = _
      simp [semaphoreTake, hv]
      rfl
    obtain ⟨hinv, hcap, -⟩ := take_inv h.inv htaken
    have hsame : Bucket.contents { q with notEmpty := ⟨v⟩ } = Bucket.contents q :=
      span_eq_of_priorities rfl 0 PRIORITIES
    obtain ⟨m, q', hg, hinv', hcap', -⟩ := pull_inv hinv
    rcases bqueueGet_cases hinv.noNull with ⟨he, -⟩ | ⟨x, q'', hg', hc, -, -, -⟩
    · rw [hsame] at he
      simp [he] at htok
      omega
    · rw [hg] at hg'
      obtain ⟨rfl, rfl⟩ := Prod.mk.inj (hg'.trans rfl) |>.imp Option.some.inj id
      rw [hsame, h.contents] at hc
      obtain ⟨y, l, hy, rfl, hl⟩ := List.map_eq_cons_iff.mp hc
      refine ⟨q', by rw [hg, hy]; rfl, hinv', (hcap'.trans hcap).trans h.capacity, ?_, ?_, ?_⟩
      · rw [hy, List.tail_cons, hl]
      · exact h.sorted.sublist (List.tail_sublist _)
      · exact fun z hz => h.clock z (List.mem_of_mem_tail hz)

/-- One call on the queue and on the reference. -/
theorem Simulates.step (h : Simulates n q r) {op : QueueOp α} (hop : op.InRange) :
    ∃ q', queueStep q op = some ((r.step n op).1, q') ∧ Simulates n q' (r.step n op).2 := by
  cases op with
  | push m p =>
    obtain ⟨ret, d, q', hp, hres, hs⟩ := h.push (m := m) (p := p) (Nat.lt_succ_of_le hop)
    refine ⟨q', ?_, hs⟩
    change (psQueuePush q m p).map _ = _
    rw [hp, Reference.step, hres]
    rfl
  | pull =>
    obtain ⟨q', hp, hs⟩ := h.pull
    exact ⟨q', by simp [queueStep, hp, Reference.step], hs⟩
  | waiting =>
    refine ⟨q, ?_, h⟩
    change some (QueueRes.count q.notEmpty.value, q) = some (.count r.items.length, q)
    rw [h.length, ← h.inv.length, Nat.add_zero]

/-- The results of a sequence of calls on the reference, and the list after it. -/
def referenceRun (n : ℕ) : List (QueueOp α) → Reference α → List (QueueRes α) × Reference α
  | [], r => ([], r)
  | op :: ops, r =>
    let (res, r) := r.step n op
    let (rs, r) := referenceRun n ops r
    (res :: rs, r)

theorem Simulates.run (h : Simulates n q r) {ops : List (QueueOp α)}
    (hops : ∀ op ∈ ops, op.InRange) :
    ∃ q', exec queueStep ops q = some ((referenceRun n ops r).1, q') ∧
      Simulates n q' (referenceRun n ops r).2 := by
  induction ops generalizing q r with
  | nil => exact ⟨q, rfl, h⟩
  | cons op ops ih =>
    obtain ⟨q₁, h₁, hs₁⟩ := h.step (hops op (by simp))
    obtain ⟨q₂, h₂, hs₂⟩ := ih hs₁ fun o ho => hops o (by simp [ho])
    exact ⟨q₂, by simp [exec, h₁, h₂, referenceRun], hs₂⟩

/-- Pushes with priorities up to 9, non-blocking pulls and waiting counts on a
fresh queue of capacity `n` give what the reference gives. The free nodes and
the nodes in the buckets are `n`, the semaphore counts the latter, and none of
them holds a NULL message. -/
theorem psQueue_refines (n : ℕ) (ops : List (QueueOp α)) (hops : ∀ op ∈ ops, op.InRange) :
    ∃ q : Queue α, exec queueStep ops (PsQueue.psNewQueue n) =
        some ((referenceRun n ops ⟨[], 0⟩).1, q) ∧
      contents q = (referenceRun n ops ⟨[], 0⟩).2.items.map (fun x => (x.priority, x.msg)) ∧
      (referenceRun n ops ⟨[], 0⟩).2.items.Pairwise Item.Before ∧
      q.available.length + bucketNodes q = n ∧ q.notEmpty.value = bucketNodes q ∧ NoNull q := by
  obtain ⟨q, hr, hs⟩ := (simulates_new n).run hops
  exact ⟨q, hr, hs.contents, hs.sorted, hs.capacity, hs.inv.tokens, hs.inv.noNull⟩

/-- A queue of two that keeps, rejects and evicts. -/
theorem psQueue_refines_small :
    (∀ op ∈ [QueueOp.push 1 0, .push 2 0, .push 3 0, .push 4 5, .pull, .waiting], op.InRange) ∧
    ∃ q : Queue ℕ, exec queueStep [.push 1 0, .push 2 0, .push 3 0, .push 4 5, .pull, .waiting]
        (PsQueue.psNewQueue 2) = some ([.pushed .ok none, .pushed .ok none, .pushed .efull none,
          .pushed .eoverflow (some 2), .pulled (some 4), .count 1], q) := by
  have hops : ∀ op ∈ [QueueOp.push 1 0, .push 2 0, .push 3 0, .push 4 5, .pull, .waiting],
      op.InRange := by
    simp [QueueOp.InRange]
  obtain ⟨q, hr, -⟩ := psQueue_refines 2 _ hops
  exact ⟨hops, q, hr⟩

end Bucket

end PubSub
