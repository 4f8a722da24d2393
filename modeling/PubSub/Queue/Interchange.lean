import PubSub.Queue.Idle
import PubSub.Queue.Refinement
import PubSub.Queue.Ring

/-! The two backends without priorities. When all pushes have the same priority
the reference of the bucket queue never evicts: it is a FIFO that rejects when it
is full, which is what the ring is. So each of the two queues gives the results
of the reference, and they can be exchanged for one another. -/

namespace PubSub

open Lib PsQueue

variable {α : Type}

/-- A push has the priority `p`. -/
def QueueOp.HasPriority (p : UInt8) : QueueOp α → Prop
  | .push _ p' => p' = p
  | _ => True

theorem QueueOp.HasPriority.inRange {p : UInt8} {op : QueueOp α} (h : op.HasPriority p)
    (hp : p ≤ 9) : op.InRange := by
  cases op with
  | push m p' =>
    have hp' : p' = p := h
    rw [hp']
    exact hp
  | pull => exact trivial
  | waiting => exact trivial

namespace Ring

/-- The ring of size `n` holds the reference list, whose priorities are all `p`. -/
structure Follows (n : ℕ) (p : UInt8) (q : Queue α) (r : Reference α) : Prop where
  inv : Inv 0 q
  size : q.size = n
  contents : contents q = r.items.map Item.msg
  priority : ∀ x ∈ r.items, x.priority = p.toNat
  clock : ∀ x ∈ r.items, x.arrival < r.clock

theorem follows_new (n : ℕ) (p : UInt8) : Follows n p (psNewQueue n : Queue α) ⟨[], 0⟩ where
  inv := inv_psNewQueue n
  size := rfl
  contents := rfl
  priority := by simp
  clock := by simp

variable {n : ℕ} {p : UInt8} {q : Queue α} {r : Reference α}

theorem Follows.length (h : Follows n p q r) : r.items.length = q.count := by
  rw [← h.inv.length_contents, h.contents, List.length_map]

/-- The new element goes behind all that wait: it came later. -/
theorem Follows.not_before (h : Follows n p q r) (m : α) :
    ∀ x ∈ r.items, ¬ Item.Before ⟨p.toNat, r.clock, m⟩ x := by
  intro x hx
  have hp := h.priority x hx
  have hc := h.clock x hx
  unfold Item.Before
  dsimp only
  omega

theorem Follows.push (h : Follows n p q r) (m : α) :
    ∃ ret d q', Ring.psQueuePush q m p = some (ret, d, q') ∧
      (r.push n m p.toNat).1 = .pushed ret d ∧ Follows n p q' (r.push n m p.toNat).2 := by
  obtain ⟨⟨ret, d, q'⟩, hpush⟩ := Option.isSome_iff_exists.mp (psQueuePush_some h.inv m p)
  refine ⟨ret, d, q', hpush, ?_⟩
  have hlen := h.length
  have hnone : ∀ x ∈ ([] : List (Item α)), Item.Before ⟨p.toNat, r.clock, m⟩ x := by simp
  have hclock := Bucket.clock_boundedInsert (n := n) (m := m) (p := p.toNat) h.clock
  rcases psQueuePush_cases h.inv hpush with ⟨rfl, rfl, rfl, hfull⟩ | ⟨rfl, rfl, hroom, hinv, hsize, hc⟩
  · have hle : n ≤ r.items.length := by
      rw [hlen, hfull, h.size]
    have hins := boundedInsert_reject (h.not_before m) hle
    rw [hins] at hclock
    simp only [Reference.push, hins, if_true, true_and]
    exact ⟨h.inv, h.size, h.contents, h.priority, hclock⟩
  · have hlt : (r.items ++ []).length < n := by
      rw [List.append_nil, hlen, ← h.size]
      exact hroom
    have hins := boundedInsert_room (h.not_before m) hnone hlt
    rw [List.append_nil] at hins
    rw [hins] at hclock
    simp only [Reference.push, hins, true_and]
    refine ⟨hinv, hsize.trans h.size, ?_, fun x hx => ?_, hclock⟩
    · rw [hc, h.contents, List.map_append, List.map_cons, List.map_nil]
    · rcases List.mem_append.mp hx with hx | hx
      · exact h.priority x hx
      · rw [List.mem_singleton.mp hx]

theorem Follows.pull (h : Follows n p q r) :
    ∃ q', psQueuePull q 0 = some (r.items.head?.map Item.msg, q') ∧
      Follows n p q' { r with items := r.items.tail } := by
  have hret : (psQueuePull q 0).isSome := psQueuePull_some h.inv (.inr (by decide))
  obtain ⟨⟨m, q'⟩, hpull⟩ := Option.isSome_iff_exists.mp hret
  refine ⟨q', ?_⟩
  have hcontents : LawfulPsQueue.items q = r.items.map Item.msg := h.contents
  rcases psQueuePull_cases h.inv hpull with ⟨rfl, hi, rfl⟩ | ⟨x, rfl, hinv, hcap, hi⟩
  · have hnil : r.items = [] := List.map_eq_nil_iff.mp (hcontents.symm.trans hi)
    rw [hpull, hnil]
    exact ⟨rfl, h.inv, h.size, h.contents.trans (by rw [hnil]; rfl), by simp, by simp⟩
  · obtain ⟨y, l, hy, rfl, hl⟩ := List.map_eq_cons_iff.mp (hcontents.symm.trans hi)
    have hsub : ∀ z ∈ r.items.tail, z ∈ r.items := fun z hz => List.mem_of_mem_tail hz
    rw [hpull, hy]
    refine ⟨rfl, hinv, hcap.trans h.size, hl.symm, fun z hz => ?_, fun z hz => ?_⟩
    · exact h.priority z (hsub z (by rw [hy]; exact hz))
    · exact h.clock z (hsub z (by rw [hy]; exact hz))

/-- One call on the ring and on the reference. -/
theorem Follows.step (h : Follows n p q r) {op : QueueOp α} (hop : op.HasPriority p) :
    ∃ q', queueStep q op = some ((r.step n op).1, q') ∧ Follows n p q' (r.step n op).2 := by
  cases op with
  | push m p' =>
    have hp : p' = p := hop
    subst hp
    obtain ⟨ret, d, q', hpush, hres, hs⟩ := h.push m
    refine ⟨q', ?_, hs⟩
    change (Ring.psQueuePush q m p').map _ = _
    rw [hpush, Reference.step, hres]
    rfl
  | pull =>
    obtain ⟨q', hpull, hs⟩ := h.pull
    refine ⟨q', ?_, hs⟩
    rw [queueStep, hpull]
    rfl
  | waiting =>
    refine ⟨q, ?_, h⟩
    change some (QueueRes.count q.count, q) = some (.count r.items.length, q)
    rw [h.length]

theorem Follows.run (h : Follows n p q r) {ops : List (QueueOp α)}
    (hops : ∀ op ∈ ops, op.HasPriority p) :
    ∃ q', exec queueStep ops q = some ((Bucket.referenceRun n ops r).1, q') ∧
      Follows n p q' (Bucket.referenceRun n ops r).2 := by
  induction ops generalizing q r with
  | nil => exact ⟨q, rfl, h⟩
  | cons op ops ih =>
    obtain ⟨q₁, h₁, hs₁⟩ := h.step (hops op (by simp))
    obtain ⟨q₂, h₂, hs₂⟩ := ih hs₁ fun o ho => hops o (by simp [ho])
    refine ⟨q₂, ?_, hs₂⟩
    simp only [exec, h₁, h₂, Bucket.referenceRun, Option.bind_eq_bind, Option.bind_some]

end Ring

/-- On fresh queues of capacity `n`, pushes of one priority, non-blocking pulls and
waiting counts give the same results on the ring and on the buckets, and leave
the same messages in the same order. -/
theorem backends_interchangeable (n : ℕ) {p : UInt8} (hp : p ≤ 9) (ops : List (QueueOp α))
    (hops : ∀ op ∈ ops, op.HasPriority p) :
    ∃ rs, ∃ a : Ring.Queue α, ∃ b : Bucket.Queue α,
      exec queueStep ops (psNewQueue n) = some (rs, a) ∧
      exec queueStep ops (psNewQueue n) = some (rs, b) ∧
      LawfulPsQueue.items a = LawfulPsQueue.items b := by
  obtain ⟨a, ha, hfa⟩ := (Ring.follows_new n p).run hops
  obtain ⟨b, hb, hfb⟩ := (Bucket.simulates_new n).run fun op hop => (hops op hop).inRange hp
  refine ⟨_, a, b, ha, hb, ?_⟩
  change Ring.contents a = (Bucket.contents b).map Prod.snd
  rw [hfa.contents, hfb.contents, List.map_map]
  rfl

/-- A queue of two that is filled, rejects, is emptied and wraps around. -/
theorem backends_interchangeable_wrap :
    (∀ op ∈ [QueueOp.pull, .push 1 3, .push 2 3, .push 3 3, .pull, .push 4 3, .waiting, .pull, .pull],
      op.HasPriority 3) ∧
    ∃ rs, ∃ a : Ring.Queue ℕ, ∃ b : Bucket.Queue ℕ,
      exec queueStep [.pull, .push 1 3, .push 2 3, .push 3 3, .pull, .push 4 3, .waiting, .pull, .pull]
        (psNewQueue 2) = some (rs, a) ∧
      exec queueStep [.pull, .push 1 3, .push 2 3, .push 3 3, .pull, .push 4 3, .waiting, .pull, .pull]
        (psNewQueue 2) = some (rs, b) ∧
      LawfulPsQueue.items a = LawfulPsQueue.items b := by
  have hops : ∀ op ∈ [QueueOp.pull, .push 1 3, .push 2 3, .push 3 3, .pull, .push 4 3, .waiting, .pull,
      .pull], op.HasPriority 3 := by
    simp [QueueOp.HasPriority]
  exact ⟨hops, backends_interchangeable 2 (by decide) _ hops⟩

end PubSub
