import PubSub.Lib.Runs
import PubSub.Queue.Bucket
import PubSub.Queue.Ring
import Mathlib.Data.List.Perm.Basic

/-! Any number of threads that push to and pull from one queue. A push is one
step, under the mutex. A pull is two: the decrement of the semaphore, and the
critical section, with any steps of other threads between them. The threads
between their two steps are the in-flight ones, and the stored messages are
always as many as the semaphore's value and the in-flight threads together.
Everything here is proved from the contract of a backend, so it holds of both. -/

namespace PubSub

open Lib PsQueue LawfulPsQueue

/-- A queue and the threads that have decremented its semaphore and not yet
entered their critical section. -/
structure Shared (Q : Type → Type) (α : Type) where
  queue : Q α
  inFlight : List ℕ

/-- One atomic step; `take` and `lock` are the two steps of a pull of thread `t`. -/
inductive ThreadOp (α : Type) where
  | push (m : α) (p : UInt8)
  | take (t : ℕ)
  | lock (t : ℕ)

inductive ThreadRes (α : Type) where
  | pushed (ret : QueueRet) (dropped : Option α)
  | token
  | pulled (msg : Option α)

variable {Q : Type → Type} [PsQueue Q] {α : Type}

/-- A thread takes one token at a time, and a wait on a zero semaphore does not
step. -/
def threadStep (s : Shared Q α) : ThreadOp α → Option (ThreadRes α × Shared Q α)
  | .push m p => do
    let (ret, d, q) ← psQueuePush s.queue m p
    some (.pushed ret d, { s with queue := q })
  | .take t =>
    if t ∈ s.inFlight then none
    else do
      let q ← takeToken s.queue
      some (.token, ⟨q, t :: s.inFlight⟩)
  | .lock t =>
    if t ∈ s.inFlight then do
      let (m, q) ← pullLocked s.queue
      some (.pulled m, ⟨q, s.inFlight.erase t⟩)
    else none

abbrev ThreadEvent (α : Type) := ThreadOp α × ThreadRes α

/-- An interleaving of the steps of all threads. -/
abbrev Interleaving (s : Shared Q α) (h : List (ThreadEvent α)) (s' : Shared Q α) : Prop :=
  Run (fun s e s' => threadStep s e.1 = some (e.2, s')) s h s'

def ThreadEvent.accepted : ThreadEvent α → Option α
  | (.push m _, .pushed ret _) => if ret = .efull then none else some m
  | _ => none

def ThreadEvent.returned : ThreadEvent α → Option α
  | (_, .pulled m) => m
  | _ => none

def ThreadEvent.evicted : ThreadEvent α → Option α
  | (_, .pushed .eoverflow d) => d
  | _ => none

/-- The messages of the pushes that were not rejected. -/
def accepted (h : List (ThreadEvent α)) : List α := h.filterMap ThreadEvent.accepted

/-- The messages that pulls returned. -/
def returned (h : List (ThreadEvent α)) : List α := h.filterMap ThreadEvent.returned

/-- The messages that pushes dropped from the queue with `PS_QUEUE_EOVERFLOW`. -/
def evicted (h : List (ThreadEvent α)) : List α := h.filterMap ThreadEvent.evicted

theorem filterMap_snoc {β γ : Type} (f : β → Option γ) (l : List β) (b : β) :
    (l ++ [b]).filterMap f = l.filterMap f ++ (f b).toList := by
  rw [List.filterMap_append]
  cases h : f b <;> simp [h]

/-- A pull that got its token got a message. -/
def PullsGet (h : List (ThreadEvent α)) : Prop :=
  ∀ e ∈ h, ∀ m, e.2 = .pulled m → m.isSome

variable [LawfulPsQueue Q]

/-- What holds after every interleaving `h`. -/
structure Conserved (h : List (ThreadEvent α)) (s : Shared Q α) : Prop where
  inv : Inv s.inFlight.length s.queue
  balance : (accepted h).Perm (items s.queue ++ (returned h ++ evicted h))
  pulls : PullsGet h

theorem conserved_nil (n : ℕ) : Conserved [] (⟨psNewQueue n, []⟩ : Shared Q α) where
  inv := inv_new n
  balance := by simp [accepted, returned, evicted, items_new]
  pulls := by simp [PullsGet]

omit [PsQueue Q] [LawfulPsQueue Q] in
theorem PullsGet.snoc {h : List (ThreadEvent α)} {e : ThreadEvent α} (hp : PullsGet h)
    (he : ∀ m, e.2 = .pulled m → m.isSome) : PullsGet (h ++ [e]) := by
  intro e' he' m hm
  rcases List.mem_append.mp he' with h' | h'
  · exact hp e' h' m hm
  · rw [List.mem_singleton.mp h'] at hm
    exact he m hm

theorem Conserved.push {h : List (ThreadEvent α)} {s : Shared Q α} (hc : Conserved h s) {m : α}
    {p : UInt8} {ret : QueueRet} {d : Option α} {q : Q α}
    (hpush : psQueuePush s.queue m p = some (ret, d, q)) :
    Conserved (h ++ [(.push m p, .pushed ret d)]) { s with queue := q } := by
  obtain ⟨hinv, -, hpushed⟩ := push_inv hc.inv hpush
  refine ⟨hinv, ?_, hc.pulls.snoc fun _ hm => by cases hm⟩
  have hbal := hc.balance
  simp only [accepted, returned, evicted, filterMap_snoc] at hbal ⊢
  generalize items q = items' at hpushed ⊢
  cases hpushed with
  | ok _ hperm =>
    have hadd := (hbal.cons m).trans (hperm.symm.append_right _)
    simpa [ThreadEvent.accepted, ThreadEvent.returned, ThreadEvent.evicted] using
      (List.perm_append_singleton m _).trans hadd
  | efull _ =>
    simpa [ThreadEvent.accepted, ThreadEvent.returned, ThreadEvent.evicted] using hbal
  | @eoverflow x _ _ hperm =>
    have hadd := (hbal.cons m).trans (hperm.symm.append_right _)
    simpa [ThreadEvent.accepted, ThreadEvent.returned, ThreadEvent.evicted] using
      (List.perm_append_singleton m _).trans (hadd.trans (List.perm_append_singleton x _).symm)

theorem Conserved.take {h : List (ThreadEvent α)} {s : Shared Q α} (hc : Conserved h s) {t : ℕ}
    {q : Q α} (htake : takeToken s.queue = some q) :
    Conserved (h ++ [(.take t, .token)]) ⟨q, t :: s.inFlight⟩ := by
  obtain ⟨hinv, -, hitems⟩ := take_inv hc.inv htake
  refine ⟨hinv, ?_, hc.pulls.snoc fun _ hm => by cases hm⟩
  have hbal := hc.balance
  simp only [accepted, returned, evicted, filterMap_snoc, hitems] at hbal ⊢
  simpa [ThreadEvent.accepted, ThreadEvent.returned, ThreadEvent.evicted] using hbal

/-- The in-flight threads are as many as the pulls that may still enter. -/
theorem inv_erase {q : Q α} {l : List ℕ} {t : ℕ} (hinv : Inv l.length q) (ht : t ∈ l) :
    Inv ((l.erase t).length + 1) q := by
  have hpos := List.length_pos_of_mem ht
  rw [List.length_erase_of_mem ht, Nat.sub_add_cancel hpos]
  exact hinv

/-- A step of a pull takes one from the semaphore or nothing. -/
theorem threadStep_pull {s s' : Shared Q α} {op : ThreadOp α} {res : ThreadRes α}
    (hinv : Inv s.inFlight.length s.queue) (hop : ∀ m p, op ≠ .push m p)
    (hs : threadStep s op = some (res, s')) : Inv s'.inFlight.length s'.queue ∧
      (notEmpty s'.queue).value ≤ (notEmpty s.queue).value := by
  have hold := tokens_add hinv
  cases op with
  | push m p => exact absurd rfl (hop m p)
  | take t =>
    simp only [threadStep] at hs
    split at hs
    case isTrue => cases hs
    case isFalse =>
      obtain ⟨q, htake, heq⟩ := Option.bind_eq_some_iff.mp hs
      cases heq
      obtain ⟨hinv', -, hitems⟩ := take_inv hinv htake
      have hnew := tokens_add hinv'
      rw [hitems] at hnew
      refine ⟨hinv', ?_⟩
      show (notEmpty q).value ≤ (notEmpty s.queue).value
      omega
  | lock t =>
    simp only [threadStep] at hs
    split at hs
    case isFalse => cases hs
    case isTrue ht =>
      obtain ⟨⟨m, q⟩, hlock, heq⟩ := Option.bind_eq_some_iff.mp hs
      cases heq
      have hsucc := inv_erase hinv ht
      obtain ⟨x, q', hl, hinv', -, hitems⟩ := pull_inv hsucc
      rw [hl] at hlock
      obtain ⟨rfl, rfl⟩ := Prod.mk.inj (Option.some.inj hlock)
      have hbefore := tokens_add hsucc
      have hnew := tokens_add hinv'
      rw [hitems, List.length_cons] at hbefore
      refine ⟨hinv', ?_⟩
      show (notEmpty q').value ≤ (notEmpty s.queue).value
      omega

theorem Conserved.lock {h : List (ThreadEvent α)} {s : Shared Q α} (hc : Conserved h s) {t : ℕ}
    (ht : t ∈ s.inFlight) {m : Option α} {q : Q α} (hlock : pullLocked s.queue = some (m, q)) :
    Conserved (h ++ [(.lock t, .pulled m)]) ⟨q, s.inFlight.erase t⟩ := by
  obtain ⟨x, q', hl, hinv, -, hitems⟩ := pull_inv (inv_erase hc.inv ht)
  rw [hl] at hlock
  obtain ⟨rfl, rfl⟩ := Prod.mk.inj (Option.some.inj hlock)
  refine ⟨hinv, ?_, hc.pulls.snoc fun m hm => by cases hm; rfl⟩
  have hbal := hc.balance
  simp only [accepted, returned, evicted, filterMap_snoc, hitems] at hbal ⊢
  have hmove : (x :: (items q' ++ (h.filterMap ThreadEvent.returned ++
      h.filterMap ThreadEvent.evicted))).Perm (items q' ++ (h.filterMap ThreadEvent.returned ++
      x :: h.filterMap ThreadEvent.evicted)) := by
    rw [← List.append_assoc, ← List.append_assoc]
    exact List.perm_middle.symm
  simpa [ThreadEvent.accepted, ThreadEvent.returned, ThreadEvent.evicted] using hbal.trans hmove

theorem Conserved.step {h : List (ThreadEvent α)} {s s' : Shared Q α} {e : ThreadEvent α}
    (hc : Conserved h s) (hs : threadStep s e.1 = some (e.2, s')) : Conserved (h ++ [e]) s' := by
  obtain ⟨op, res⟩ := e
  cases op with
  | push m p =>
    simp only [threadStep, Option.bind_eq_bind, Option.bind_eq_some_iff, Option.some.injEq,
      Prod.mk.injEq] at hs
    obtain ⟨⟨ret, d, q⟩, hpush, rfl, rfl⟩ := hs
    exact hc.push hpush
  | take t =>
    simp only [threadStep] at hs
    split at hs
    case isTrue => cases hs
    case isFalse =>
      simp only [Option.bind_eq_bind, Option.bind_eq_some_iff, Option.some.injEq,
        Prod.mk.injEq] at hs
      obtain ⟨q, htake, rfl, rfl⟩ := hs
      exact hc.take htake
  | lock t =>
    simp only [threadStep] at hs
    split at hs
    case isFalse => cases hs
    case isTrue ht =>
      simp only [Option.bind_eq_bind, Option.bind_eq_some_iff, Option.some.injEq,
        Prod.mk.injEq] at hs
      obtain ⟨⟨m, q⟩, hlock, rfl, rfl⟩ := hs
      exact hc.lock ht hlock

theorem conserved_run {n : ℕ} {h : List (ThreadEvent α)} {s : Shared Q α}
    (hr : Interleaving ⟨psNewQueue n, []⟩ h s) : Conserved h s :=
  hr.history (conserved_nil n) fun _ _ _ _ _ hc hs => hc.step hs

/-- A pull past its semaphore never blocks and never gets NULL. -/
theorem Conserved.lock_some {h : List (ThreadEvent α)} {s : Shared Q α} (hc : Conserved h s) {t : ℕ}
    (ht : t ∈ s.inFlight) : ∃ m s', threadStep s (.lock t) = some (.pulled (some m), s') := by
  obtain ⟨m, q', hl, -⟩ := pull_inv (inv_erase hc.inv ht)
  exact ⟨m, ⟨q', s.inFlight.erase t⟩, by simp [threadStep, ht, hl]⟩

/-- After every interleaving from a fresh queue: the stored messages are the
semaphore's value and the in-flight pulls together; every in-flight pull obtains
a message, and every finished one did; and the accepted pushes are the stored,
the returned and the evicted messages, each once. -/
theorem concurrent_pulls {n : ℕ} {h : List (ThreadEvent α)} {s : Shared Q α}
    (hr : Interleaving ⟨psNewQueue n, []⟩ h s) :
    (items s.queue).length = (notEmpty s.queue).value + s.inFlight.length ∧
    (∀ t ∈ s.inFlight, ∃ m s', threadStep s (.lock t) = some (.pulled (some m), s')) ∧
    (∀ t m, (ThreadOp.lock t, ThreadRes.pulled m) ∈ h → m.isSome) ∧
    (accepted h).Perm (items s.queue ++ (returned h ++ evicted h)) ∧
    ((accepted h).Nodup → (items s.queue ++ (returned h ++ evicted h)).Nodup) := by
  have hc := conserved_run hr
  exact ⟨(tokens_add hc.inv).symm, fun t ht => hc.lock_some ht,
    fun t m hm => hc.pulls _ hm m rfl, hc.balance, hc.balance.nodup_iff.mp⟩

/-- A push evicts the message that an in-flight pull had a token for, and the
pull then obtains the new message. -/
theorem concurrent_pulls_evict :
    ∃ s : Shared Bucket.Queue ℕ,
      exec threadStep [.push 7 0, .take 1, .push 8 5] ⟨psNewQueue 1, []⟩ =
        some ([.pushed .ok none, .token, .pushed .eoverflow (some 7)], s) ∧
      s.inFlight = [1] ∧ (items s.queue).length = (notEmpty s.queue).value + s.inFlight.length ∧
      ∃ m s', threadStep s (.lock 1) = some (.pulled (some m), s') := by
  refine ⟨_, rfl, rfl, ?_⟩
  have hc := concurrent_pulls (Q := Bucket.Queue) (run_of_exec (f := threadStep)
    (l := [.push 7 0, .take 1, .push 8 5]) (s := ⟨psNewQueue 1, []⟩) rfl)
  exact ⟨hc.1, hc.2.1 1 (List.mem_singleton_self 1)⟩

end PubSub
