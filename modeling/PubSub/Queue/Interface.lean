import PubSub.Sync
import Mathlib.Data.List.Perm.Basic

/-! The queue interface of `psqueue.h`, which two backends implement, and what
the rest of the code relies on. `none` is undefined behaviour: an index past the
end of an array, or a NULL or dangling pointer. A pull has two steps, the
semaphore's decrement and the critical section, and other threads may run between
them; `Inv k` is the invariant while `k` pulls are between the two. -/

namespace PubSub

/-- The result codes of `ps_queue_push`. -/
inductive QueueRet where
  | ok | efull | eoverflow
  deriving DecidableEq

/-- `psqueue.h`. A push also gives the message that the queue itself passed to
`ps_unref_msg`, and `psFreeQueue` gives all such messages. -/
class PsQueue (Q : Type → Type) where
  psNewQueue : {α : Type} → ℕ → Q α
  psFreeQueue : {α : Type} → Q α → Option (List α)
  psQueuePush : {α : Type} → Q α → α → UInt8 → Option (QueueRet × Option α × Q α)
  notEmpty : {α : Type} → Q α → Semaphore
  setNotEmpty : {α : Type} → Q α → Semaphore → Q α
  pullLocked : {α : Type} → Q α → Option (Option α × Q α)
  psQueueWaiting : {α : Type} → Q α → ℕ

open PsQueue

section Pull
variable {Q : Type → Type} [PsQueue Q] {α : Type}

/-- The first step of a pull whose wait succeeds. -/
def takeToken (q : Q α) : Option (Q α) := (semaphoreTake (notEmpty q)).map (setNotEmpty q)

/-- `ps_queue_pull`, the same text in both backends: the wait, whose timeout is
converted to `int32_t`, then the critical section. `none` is undefined behaviour
or a wait without end. -/
def psQueuePull (q : Q α) (timeout : Int64) : Option (Option α × Q α) := do
  let (ret, sem) ← semaphoreWait (notEmpty q) timeout.toInt32
  let q := setNotEmpty q sem
  if ret < 0 then some (none, q) else pullLocked q

end Pull

/-- What a push does to a bag of at most `cap` messages. -/
inductive Pushed {α : Type} (cap : ℕ) (l : List α) (m : α) : QueueRet → Option α → List α → Prop
  | ok {l' : List α} : l.length < cap → l'.Perm (m :: l) → Pushed cap l m .ok none l'
  | efull : l.length = cap → Pushed cap l m .efull none l
  | eoverflow {e : α} {l' : List α} : l.length = cap → (e :: l').Perm (m :: l) →
      Pushed cap l m .eoverflow (some e) l'

theorem Pushed.ok_of_lt {α : Type} {cap : ℕ} {l l' : List α} {m : α} {ret : QueueRet} {d : Option α}
    (h : Pushed cap l m ret d l') (hlt : l.length < cap) : ret = .ok ∧ l'.length = l.length + 1 := by
  cases h with
  | ok _ hp => exact ⟨rfl, hp.length_eq⟩
  | efull hfull => omega
  | eoverflow hfull => omega

section Pushed
variable {α : Type} {cap : ℕ} {l l' : List α} {m : α} {ret : QueueRet} {d : Option α}

theorem Pushed.ok_length (h : Pushed cap l m .ok d l') : l'.length = l.length + 1 := by
  cases h with
  | ok _ hperm => exact hperm.length_eq

/-- A push that is not stored, or that evicts, leaves as many messages as there were. -/
theorem Pushed.refused_length (h : Pushed cap l m ret d l') (hret : ret ≠ .ok) :
    l'.length = l.length := by
  cases h with
  | ok => exact absurd rfl hret
  | efull => rfl
  | eoverflow _ hperm =>
    have hlen := hperm.length_eq
    simpa using hlen

/-- Only a push that evicts drops a message in the queue. -/
theorem Pushed.dropped_eq_none (h : Pushed cap l m ret d l') (hret : ret ≠ .eoverflow) : d = none := by
  cases h with
  | ok => rfl
  | efull => rfl
  | eoverflow => exact absurd rfl hret

end Pushed

/-- The contract of a backend. `items` is the content in the order of pulls. -/
class LawfulPsQueue (Q : Type → Type) [PsQueue Q] where
  Inv : {α : Type} → ℕ → Q α → Prop
  items : {α : Type} → Q α → List α
  capacity : {α : Type} → Q α → ℕ
  inv_new : ∀ {α : Type} (n : ℕ), Inv 0 (psNewQueue n : Q α)
  items_new : ∀ {α : Type} (n : ℕ), items (psNewQueue n : Q α) = []
  capacity_new : ∀ {α : Type} (n : ℕ), capacity (psNewQueue n : Q α) = n
  tokens_add : ∀ {α : Type} {k : ℕ} {q : Q α}, Inv k q →
    (notEmpty q).value + k = (items q).length
  length_le : ∀ {α : Type} {k : ℕ} {q : Q α}, Inv k q → (items q).length ≤ capacity q
  push_some : ∀ {α : Type} {k : ℕ} {q : Q α} (m : α) {p : UInt8}, Inv k q → p.toNat < 10 →
    (psQueuePush q m p).isSome
  push_inv : ∀ {α : Type} {k : ℕ} {q q' : Q α} {m : α} {p : UInt8} {ret : QueueRet}
    {dropped : Option α}, Inv k q → psQueuePush q m p = some (ret, dropped, q') →
    Inv k q' ∧ capacity q' = capacity q ∧ Pushed (capacity q) (items q) m ret dropped (items q')
  take_inv : ∀ {α : Type} {k : ℕ} {q q' : Q α}, Inv k q → takeToken q = some q' →
    Inv (k + 1) q' ∧ capacity q' = capacity q ∧ items q' = items q
  set_notEmpty : ∀ {α : Type} (q : Q α), setNotEmpty q (notEmpty q) = q
  pull_inv : ∀ {α : Type} {k : ℕ} {q : Q α}, Inv (k + 1) q → ∃ m q', pullLocked q = some (some m, q') ∧
    Inv k q' ∧ capacity q' = capacity q ∧ items q = m :: items q'
  waiting_eq : ∀ {α : Type} {q : Q α}, Inv 0 q → psQueueWaiting q = (items q).length
  free_empty : ∀ {α : Type} {k : ℕ} {q : Q α}, Inv k q → items q = [] → psFreeQueue q = some []

end PubSub
