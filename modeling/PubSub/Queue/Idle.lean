import PubSub.Queue.Interface
import Mathlib.Logic.Basic

/-! A queue with no pull in flight: the backend's invariant is part of the value.
This is the queue as the calls of one thread at a time see it, and all that the
code above the queue is proved from. -/

namespace PubSub

open PsQueue LawfulPsQueue

/-- A queue in which the semaphore counts the messages. -/
structure IdleQueue (Q : Type → Type) [PsQueue Q] [LawfulPsQueue Q] (α : Type) where
  raw : Q α
  ok : Inv 0 raw

variable {Q : Type → Type} [PsQueue Q] [LawfulPsQueue Q] {α : Type}

/-- A pull that is not interrupted. -/
theorem psQueuePull_cases {q q' : Q α} {timeout : Int64} {m : Option α} (hq : Inv 0 q)
    (h : psQueuePull q timeout = some (m, q')) :
    (m = none ∧ items q = [] ∧ q' = q) ∨
    (∃ x, m = some x ∧ Inv 0 q' ∧ capacity q' = capacity q ∧ items q = x :: items q') := by
  have htok := tokens_add hq
  simp only [psQueuePull, semaphoreWait, Option.bind_eq_bind, Option.bind_eq_some_iff] at h
  obtain ⟨⟨ret, sem⟩, hw, h⟩ := h
  split at hw
  case h_1 sem' ht =>
    cases hw
    simp only [Int.lt_irrefl, ↓reduceIte] at h
    have htake : takeToken q = some (setNotEmpty q sem) := by rw [takeToken, ht]; rfl
    obtain ⟨hinv, hcap, hitems⟩ := take_inv hq htake
    obtain ⟨x, q'', hl, hinv', hcap', hi⟩ := pull_inv hinv
    rw [hl] at h
    obtain ⟨rfl, rfl⟩ := Prod.mk.inj (Option.some.inj h)
    exact .inr ⟨x, rfl, hinv', hcap'.trans hcap, hitems.symm.trans hi⟩
  case h_2 ht =>
    split at hw
    case isTrue => cases hw
    case isFalse =>
      cases hw
      have hz := semaphoreTake_eq_none.mp ht
      simp only [set_notEmpty, Int.reduceNeg, Int.reduceLT, ↓reduceIte, Option.some.injEq,
        Prod.mk.injEq] at h
      exact .inl ⟨h.1.symm, List.eq_nil_of_length_eq_zero (by omega), h.2.symm⟩

/-- A pull that does not block returns. -/
theorem psQueuePull_some {q : Q α} {timeout : Int64} (hq : Inv 0 q)
    (ht : items q ≠ [] ∨ ¬ timeout.toInt32 < 0) : (psQueuePull q timeout).isSome := by
  have htok := tokens_add hq
  simp only [psQueuePull, semaphoreWait]
  cases hs : semaphoreTake (notEmpty q) with
  | some sem =>
    have htake : takeToken q = some (setNotEmpty q sem) := by rw [takeToken, hs]; rfl
    obtain ⟨hinv, -⟩ := take_inv hq htake
    obtain ⟨x, q', hl, -⟩ := pull_inv hinv
    simp [hl]
  | none =>
    have hz := semaphoreTake_eq_none.mp hs
    have hnil : items q = [] := List.eq_nil_of_length_eq_zero (by omega)
    simp [ht.resolve_left (fun h => h hnil)]

namespace IdleQueue

def new (n : ℕ) : IdleQueue Q α := ⟨psNewQueue n, inv_new n⟩

def push (q : IdleQueue Q α) (m : α) (p : UInt8) :
    Option (QueueRet × Option α × IdleQueue Q α) :=
  match h : psQueuePush q.raw m p with
  | none => none
  | some (ret, d, q') => some (ret, d, ⟨q', (push_inv q.ok h).1⟩)

def pull (q : IdleQueue Q α) (timeout : Int64) : Option (Option α × IdleQueue Q α) :=
  match h : psQueuePull q.raw timeout with
  | none => none
  | some (m, q') => some (m, ⟨q', by
      rcases psQueuePull_cases q.ok h with ⟨-, -, rfl⟩ | ⟨-, -, hinv, -⟩
      · exact q.ok
      · exact hinv⟩)

def waiting (q : IdleQueue Q α) : ℕ := psQueueWaiting q.raw

/-- The messages in the order of pulls. -/
def items (q : IdleQueue Q α) : List α := LawfulPsQueue.items q.raw

def capacity (q : IdleQueue Q α) : ℕ := LawfulPsQueue.capacity q.raw

@[simp] theorem items_new (n : ℕ) : (new n : IdleQueue Q α).items = [] :=
  LawfulPsQueue.items_new n

@[simp] theorem capacity_new (n : ℕ) : (new n : IdleQueue Q α).capacity = n :=
  LawfulPsQueue.capacity_new n

theorem waiting_eq (q : IdleQueue Q α) : q.waiting = q.items.length :=
  LawfulPsQueue.waiting_eq q.ok

theorem length_le (q : IdleQueue Q α) : q.items.length ≤ q.capacity :=
  LawfulPsQueue.length_le q.ok

/-- A push of the bundled queue is a push of the queue in it. -/
theorem push_eq_some {q q' : IdleQueue Q α} {m : α} {p : UInt8} {ret : QueueRet} {d : Option α} :
    q.push m p = some (ret, d, q') ↔ psQueuePush q.raw m p = some (ret, d, q'.raw) := by
  unfold push
  split
  case h_1 h => simp [h]
  case h_2 ret' d' r h =>
    obtain ⟨r', hr'⟩ := q'
    simp [h]

theorem push_spec {q q' : IdleQueue Q α} {m : α} {p : UInt8} {ret : QueueRet} {d : Option α}
    (h : q.push m p = some (ret, d, q')) :
    q'.capacity = q.capacity ∧ Pushed q.capacity q.items m ret d q'.items :=
  (push_inv q.ok (push_eq_some.mp h)).2

theorem push_isSome (q : IdleQueue Q α) (m : α) {p : UInt8} (hp : p.toNat < 10) :
    ∃ ret d q', q.push m p = some (ret, d, q') := by
  obtain ⟨⟨ret, d, r⟩, h⟩ := Option.isSome_iff_exists.mp (push_some m q.ok hp)
  exact ⟨ret, d, ⟨r, (push_inv q.ok h).1⟩, push_eq_some.mpr h⟩

theorem push_isSome_eq (q : IdleQueue Q α) (m : α) (p : UInt8) :
    (q.push m p).isSome = (psQueuePush q.raw m p).isSome := by
  unfold push
  split
  case h_1 h => simp [h]
  case h_2 h => simp [h]

theorem pull_eq_some {q q' : IdleQueue Q α} {t : Int64} {m : Option α} :
    q.pull t = some (m, q') ↔ psQueuePull q.raw t = some (m, q'.raw) := by
  unfold pull
  split
  case h_1 h => simp [h]
  case h_2 m' r h =>
    obtain ⟨r', hr'⟩ := q'
    simp [h]

theorem pull_spec {q q' : IdleQueue Q α} {t : Int64} {m : Option α} (h : q.pull t = some (m, q')) :
    (m = none ∧ q.items = [] ∧ q' = q) ∨
    (∃ x, m = some x ∧ q'.capacity = q.capacity ∧ q.items = x :: q'.items) := by
  rcases psQueuePull_cases q.ok (pull_eq_some.mp h) with ⟨hm, hi, hq⟩ | ⟨x, hm, -, hcap, hi⟩
  · refine .inl ⟨hm, hi, ?_⟩
    obtain ⟨r, hr⟩ := q
    obtain ⟨r', hr'⟩ := q'
    cases hq
    rfl
  · exact .inr ⟨x, hm, hcap, hi⟩

theorem pull_isSome (q : IdleQueue Q α) {t : Int64} (ht : q.items ≠ [] ∨ ¬ t.toInt32 < 0) :
    ∃ m q', q.pull t = some (m, q') := by
  have hs := psQueuePull_some q.ok ht
  unfold pull
  split
  case h_1 h => simp [h] at hs
  case h_2 m q' h => exact ⟨m, _, rfl⟩

/-- A pull returns if and only if there is a message or the wait has a deadline. -/
theorem pull_isSome_iff (q : IdleQueue Q α) (t : Int64) :
    (q.pull t).isSome ↔ ¬ t.toInt32 < 0 ∨ 0 < q.waiting := by
  rw [waiting_eq, List.length_pos_iff]
  constructor
  · intro h
    by_contra hnot
    obtain ⟨ht, hempty⟩ : t.toInt32 < 0 ∧ q.items = [] := by
      simpa only [not_or, not_not] using hnot
    obtain ⟨⟨m, q'⟩, hpull⟩ := Option.isSome_iff_exists.mp h
    have htokens : (notEmpty q.raw).value = 0 := by
      have hadd := tokens_add q.ok
      have hlen := congrArg List.length hempty
      rw [IdleQueue.items, List.length_nil] at hlen
      omega
    have hnone : psQueuePull q.raw t = none := by
      rw [psQueuePull, semaphoreWait, semaphoreTake_eq_none.mpr htokens]
      simp only [if_pos ht]
      rfl
    rw [pull_eq_some, hnone] at hpull
    cases hpull
  · intro h
    obtain ⟨m, q', hpull⟩ := q.pull_isSome h.symm
    rw [hpull]
    rfl

theorem free_empty {q : IdleQueue Q α} (h : q.items = []) : psFreeQueue q.raw = some [] :=
  LawfulPsQueue.free_empty q.ok h

end IdleQueue

end PubSub
