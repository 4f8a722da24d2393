import PubSub.Bus.Publish
import PubSub.Queue.Bucket
import PubSub.SyncLinux

/-! What becomes of a timeout. `ps_get` has it as an `int64_t` and `semaphore_wait`
as an `int32_t`, whose sign tells a wait without deadline from one with. The waits
of `ps_call` and `ps_wait_one` are those of the `ps_get` in them. -/

namespace PubSub

open Lib PsQueue

variable {Q : Type → Type} [PsQueue Q]

/-- The wait of `ps_queue_pull`, whose timeout is converted. -/
def psQueuePullWait (timeout : Int64) (now : Timespec) : SemCall :=
  semaphoreWaitCall timeout.toInt32 now

/-- A pull makes this wait, then enters its critical section or gives up. -/
theorem psQueuePull_eq_wait {α : Type} (q : Q α) (timeout : Int64) (now : Timespec) :
    psQueuePull q timeout = (do
      let (ret, sem) ← (psQueuePullWait timeout now).run (notEmpty q)
      let q := setNotEmpty q sem
      if ret < 0 then some (none, q) else pullLocked q) := by
  rw [psQueuePull, semaphoreWait_eq_run _ _ now]
  rfl

variable [LawfulPsQueue Q]

/-- The wait of `ps_get`. -/
def psGetWait (s : Bus Q) (su : SubId) (timeout : Int64) (now : Timespec) : Option SemCall := do
  let _ ← s.subscribers.get su
  some (psQueuePullWait timeout now)

/-- The wait of `ps_call`, which makes none for a request that nobody receives. -/
def psCallWait (s : Bus Q) (msg : MsgId) (timeout : Int64) (now : Timespec) :
    Option (Option SemCall) := do
  let s := { s with uuidCtr := s.uuidCtr + 1 }
  let rtopic := callTopic s.uuidCtr
  let ms ← psMsgSetRtopic s.messages msg (some rtopic)
  let (su, s) ← psNewSubscriber { s with messages := ms } 1 (some [rtopic])
  let (n, s) ← psPublish s (some msg)
  if n = 0 then some none else (psGetWait s su timeout now).map some

/-- The wait of `ps_wait_one`. -/
def psWaitOneWait (s : Bus Q) (topic : Str) (timeout : Int64) (now : Timespec) :
    Option SemCall := do
  let (su, s) ← psNewSubscriber s 1 (some [topic])
  psGetWait s su timeout now

/-- `call` is the wait of a `ps_get`, in one of the three calls. -/
inductive Bus.Waits (s : Bus Q) (timeout : Int64) (now : Timespec) (call : SemCall) : Prop
  | get {su : SubId} : psGetWait s su timeout now = some call → s.Waits timeout now call
  | call {msg : MsgId} : psCallWait s msg timeout now = some (some call) → s.Waits timeout now call
  | waitOne {topic : Str} : psWaitOneWait s topic timeout now = some call → s.Waits timeout now call

section Waits
variable {s : Bus Q} {su : SubId} {timeout : Int64} {now : Timespec} {call : SemCall}

theorem psGetWait_of_get {S : PsSubscriber Q} (hS : s.subscribers.get su = some S) :
    psGetWait s su timeout now = some (psQueuePullWait timeout now) := by
  rw [psGetWait, hS]
  rfl

theorem psGetWait_eq_some (h : psGetWait s su timeout now = some call) :
    call = psQueuePullWait timeout now := by
  simp only [psGetWait, Option.bind_eq_bind, Option.bind_eq_some_iff, Option.some.injEq] at h
  obtain ⟨-, -, rfl⟩ := h
  rfl

/-- All three waits are the one that the timeout gives. -/
theorem Bus.Waits.eq (h : s.Waits timeout now call) : call = psQueuePullWait timeout now := by
  cases h with
  | get h => exact psGetWait_eq_some h
  | call h =>
    simp only [psCallWait, Option.bind_eq_bind, Option.bind_eq_some_iff] at h
    obtain ⟨ms, -, ⟨su, s₁⟩, -, ⟨n, s₂⟩, -, h⟩ := h
    split at h
    case isTrue => cases h
    case isFalse =>
      obtain ⟨call', hcall, hsome⟩ := Option.map_eq_some_iff.mp h
      cases hsome
      exact psGetWait_eq_some hcall
  | waitOne h =>
    simp only [psWaitOneWait, Option.bind_eq_bind, Option.bind_eq_some_iff] at h
    obtain ⟨⟨su, s₁⟩, -, h⟩ := h
    exact psGetWait_eq_some h

/-- Where nothing waits to be read, `ps_get` ends unless its wait has no deadline. -/
theorem psGet_eq_none_iff {S : PsSubscriber Q} (hS : s.subscribers.get su = some S)
    (hempty : S.q.items = []) :
    psGet s su timeout = none ↔ psGetWait s su timeout now = some .semWait := by
  have hwait : psGetWait s su timeout now = some .semWait ↔ timeout.toInt32 < 0 := by
    rw [psGetWait_of_get hS, psQueuePullWait, semaphoreWaitCall, Option.some.injEq]
    split <;> simp_all
  have hget : psGet s su timeout = none ↔ S.q.pull timeout = none := by
    rw [psGet, hS, Option.bind_eq_bind, Option.bind_some]
    cases S.q.pull timeout <;> simp
  rw [hwait, hget]
  constructor
  · intro hnone
    by_contra hpos
    obtain ⟨m, q, hq⟩ := S.q.pull_isSome (.inr hpos)
    rw [hnone] at hq
    cases hq
  · intro hneg
    have hzero : (notEmpty S.q.raw).value = 0 := by
      have htok := LawfulPsQueue.tokens_add S.q.ok
      rw [show LawfulPsQueue.items S.q.raw = [] from hempty, List.length_nil] at htok
      omega
    have hpull : psQueuePull S.q.raw timeout = none := by
      rw [psQueuePull, semaphoreWait, semaphoreTake_eq_none.mpr hzero]
      simp [hneg]
    rw [Option.eq_none_iff_forall_ne_some]
    rintro ⟨m, q⟩ hq
    rw [IdleQueue.pull_eq_some, hpull] at hq
    cases hq

end Waits

/-- As an `int32_t` the timeout is what it was, or at least as negative. -/
def KeepsTimeout (timeout : Int64) : Prop :=
  (0 ≤ timeout.toInt → timeout.toInt < 2 ^ 31) ∧
  (timeout.toInt < 0 → 2 ^ 31 ≤ timeout.toInt % 2 ^ 32)

instance (timeout : Int64) : Decidable (KeepsTimeout timeout) :=
  inferInstanceAs (Decidable ((0 ≤ timeout.toInt → timeout.toInt < 2 ^ 31) ∧
    (timeout.toInt < 0 → 2 ^ 31 ≤ timeout.toInt % 2 ^ 32)))

/-- The conversion, with the sign that the test sees. -/
theorem toInt_toInt32 (timeout : Int64) : timeout.toInt32.toInt =
    if timeout.toInt % 2 ^ 32 < 2 ^ 31 then timeout.toInt % 2 ^ 32
    else timeout.toInt % 2 ^ 32 - 2 ^ 32 := by
  have h := Int64.toInt_toInt32 timeout
  rw [Int.bmod_def] at h
  split at h <;> split <;> omega

theorem psQueuePullWait_eq_semWait {timeout : Int64} {now : Timespec} :
    psQueuePullWait timeout now = .semWait ↔ 2 ^ 31 ≤ timeout.toInt % 2 ^ 32 := by
  have hsign := toInt_toInt32 timeout
  have hlt := Int.emod_lt_of_pos timeout.toInt (show (0 : ℤ) < 2 ^ 32 by decide)
  have hneg : timeout.toInt32 < 0 ↔ timeout.toInt32.toInt < 0 := Int32.lt_iff_toInt_lt
  unfold psQueuePullWait semaphoreWaitCall
  split
  case isTrue h =>
    rw [hneg] at h
    simp only [true_iff]
    split at hsign <;> omega
  case isFalse h =>
    rw [hneg] at h
    simp only [reduceCtorEq, false_iff]
    split at hsign <;> omega

/-- The deadline is the timeout that is left of the conversion. -/
theorem ns_of_psQueuePullWait {timeout : Int64} {now tout : Timespec}
    (h : psQueuePullWait timeout now = .semTimedwait tout) :
    tout.ns = now.ns + timeout.toInt % 2 ^ 32 * 1000000 := by
  have hsign := toInt_toInt32 timeout
  have hlt : timeout.toInt % 2 ^ 32 < 2 ^ 31 := by
    by_contra hge
    rw [psQueuePullWait_eq_semWait.mpr (by omega)] at h
    cases h
  unfold psQueuePullWait semaphoreWaitCall at h
  split at h
  case isTrue => cases h
  case isFalse =>
    cases h
    rw [ns_deadlineMs, Int32.toInt_toInt64, hsign, if_pos hlt]

/-- A wait has no deadline just for the negative timeouts, and the others have the
deadline they ask for, if and only if the conversion keeps the timeout. -/
theorem timeout_met_iff {s : Bus Q} {timeout : Int64} {now : Timespec} {call : SemCall}
    (h : s.Waits timeout now call) :
    ((call = .semWait ↔ timeout.toInt < 0) ∧ (0 ≤ timeout.toInt → ∃ tout,
      call = .semTimedwait tout ∧ tout.ns = now.ns + timeout.toInt * 1000000)) ↔
    KeepsTimeout timeout := by
  rw [h.eq, psQueuePullWait_eq_semWait, KeepsTimeout]
  constructor
  · rintro ⟨hwait, hdeadline⟩
    refine ⟨fun hpos => ?_, hwait.mpr⟩
    obtain ⟨tout, htout, hns⟩ := hdeadline hpos
    rw [ns_of_psQueuePullWait htout] at hns
    have hlow : ¬ 2 ^ 31 ≤ timeout.toInt % 2 ^ 32 := fun hge => absurd (hwait.mp hge) (by omega)
    omega
  · rintro ⟨hpos, hneg⟩
    refine ⟨⟨fun hge => ?_, hneg⟩, fun hnonneg => ?_⟩
    · by_contra hnonneg
      have := hpos (by omega)
      omega
    · have hmod : timeout.toInt % 2 ^ 32 = timeout.toInt := by
        have := hpos hnonneg
        omega
      cases hcall : psQueuePullWait timeout now with
      | semWait =>
        have := psQueuePullWait_eq_semWait.mp hcall
        have := hpos hnonneg
        omega
      | semTimedwait tout => exact ⟨tout, rfl, by rw [ns_of_psQueuePullWait hcall, hmod]⟩

/-- A subscriber with an empty queue. -/
theorem exists_subscriber : ∃ (s : Bus Bucket.Queue) (S : PsSubscriber Bucket.Queue),
    psNewSubscriber Bus.init 1 none = some (0, s) ∧ s.subscribers.get 0 = some S :=
  ⟨_, _, rfl, rfl⟩

theorem timeout_met_iff_seconds : ∃ (s : Bus Bucket.Queue) (call : SemCall),
    psNewSubscriber Bus.init 1 none = some (0, s) ∧
    psGetWait s 0 1500 ⟨7, 600000000⟩ = some call ∧
    (call = .semWait ↔ Int64.toInt 1500 < 0) ∧ (0 ≤ Int64.toInt 1500 → ∃ tout,
      call = .semTimedwait tout ∧
        tout.ns = Timespec.ns ⟨7, 600000000⟩ + Int64.toInt 1500 * 1000000) := by
  obtain ⟨s, S, hs, hS⟩ := exists_subscriber
  have hwait : psGetWait s 0 1500 ⟨7, 600000000⟩ = some _ := psGetWait_of_get hS
  exact ⟨s, _, hs, hwait, (timeout_met_iff (.get hwait)).mpr (by decide)⟩

/-- A wait of 2^31 milliseconds has no deadline. -/
theorem timeout_not_met : ¬ ∀ (s : Bus Bucket.Queue) (timeout : Int64) (now : Timespec)
    (call : SemCall), s.Waits timeout now call →
    (call = .semWait ↔ timeout.toInt < 0) ∧ (0 ≤ timeout.toInt → ∃ tout,
      call = .semTimedwait tout ∧ tout.ns = now.ns + timeout.toInt * 1000000) := by
  intro h
  obtain ⟨s, S, -, hS⟩ := exists_subscriber
  have hwait : psGetWait s 0 2147483648 ⟨7, 0⟩ = some _ := psGetWait_of_get hS
  have hneg := (h s _ _ _ (.get hwait)).1.mp (by decide)
  exact absurd hneg (by decide)

end PubSub
