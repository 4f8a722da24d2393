import PubSub.Sync
import Mathlib.Algebra.Order.Ring.Int
import Mathlib.Tactic.Ring

/-! The waits of `sync_linux.c`. A wait with a negative timeout is a `sem_wait`;
any other is a `sem_timedwait` with a deadline, which `deadline_ms` finds from the
clock. Seconds and nanoseconds are exact integers. -/

namespace PubSub

/-- `struct timespec`. -/
structure Timespec where
  tvSec : ℤ
  tvNsec : ℤ
  deriving DecidableEq

namespace Timespec

/-- The instant, in nanoseconds. -/
def ns (t : Timespec) : ℤ := t.tvSec * 1000000000 + t.tvNsec

/-- What `sem_timedwait` asks of its argument. -/
def Normalised (t : Timespec) : Prop := 0 ≤ t.tvNsec ∧ t.tvNsec < 1000000000

instance (t : Timespec) : Decidable t.Normalised :=
  inferInstanceAs (Decidable (0 ≤ t.tvNsec ∧ t.tvNsec < 1000000000))

end Timespec

/-- `deadline_ms`, when the clock reads `now`. -/
def deadlineMs (ms : Int64) (now : Timespec) : Timespec :=
  let tvSec := now.tvSec + ms.toInt.tdiv 1000
  let tvNsec := now.tvNsec + ms.toInt.tmod 1000 * 1000000
  if tvNsec > 1000000000 then ⟨tvSec + 1, tvNsec - 1000000000⟩ else ⟨tvSec, tvNsec⟩

/-- The call on the semaphore that a wait makes. -/
inductive SemCall where
  | semWait
  | semTimedwait (tout : Timespec)
  deriving DecidableEq

/-- Which of its two calls `semaphore_wait` makes. -/
def semaphoreWaitCall (timeoutMs : Int32) (now : Timespec) : SemCall :=
  if timeoutMs < 0 then .semWait else .semTimedwait (deadlineMs timeoutMs.toInt64 now)

/-- The call, while no other thread posts; a `sem_timedwait` that cannot decrement
returns -1, at its deadline or at once. One that can decrement does not look at its
deadline, as is documented; a C library that checks it first returns -1 for one that is
not normalised. -/
def SemCall.run (call : SemCall) (s : Semaphore) : Option (ℤ × Semaphore) :=
  match semaphoreTake s with
  | some s => some (0, s)
  | none =>
    match call with
    | .semWait => none
    | .semTimedwait _ => some (-1, s)

theorem semaphoreWait_eq_run (s : Semaphore) (timeoutMs : Int32) (now : Timespec) :
    semaphoreWait s timeoutMs = (semaphoreWaitCall timeoutMs now).run s := by
  unfold semaphoreWait SemCall.run semaphoreWaitCall
  cases semaphoreTake s with
  | some s => rfl
  | none => by_cases h : timeoutMs < 0 <;> simp [h]

section Deadline
variable {ms : Int64} {now : Timespec}

/-- The deadline is the right instant, normalised or not. -/
theorem ns_deadlineMs (ms : Int64) (now : Timespec) :
    (deadlineMs ms now).ns = now.ns + ms.toInt * 1000000 := by
  have hdiv := Int.mul_tdiv_add_tmod ms.toInt 1000
  unfold deadlineMs Timespec.ns
  dsimp only
  split <;> dsimp only <;> omega

/-- One carry is enough, but the test of the carry misses the second itself. -/
theorem normalised_deadlineMs_iff (hnow : now.Normalised) (hms : 0 ≤ ms.toInt) :
    (deadlineMs ms now).Normalised ↔ now.tvNsec + ms.toInt % 1000 * 1000000 ≠ 1000000000 := by
  obtain ⟨hlo, hhi⟩ := hnow
  have hmod : ms.toInt.tmod 1000 = ms.toInt % 1000 := Int.tmod_eq_emod_of_nonneg hms
  have hpos := Int.emod_nonneg ms.toInt (show (1000 : ℤ) ≠ 0 by decide)
  have hlt := Int.emod_lt_of_pos ms.toInt (show (0 : ℤ) < 1000 by decide)
  unfold deadlineMs Timespec.Normalised
  dsimp only
  rw [hmod]
  split <;> dsimp only <;> omega

/-- From a normalised clock reading the deadline is the instant `ms` milliseconds
later, normalised, unless the nanoseconds add up to one second exactly. -/
theorem deadlineMs_correct_iff (hnow : now.Normalised) (hms : 0 ≤ ms.toInt) :
    ((deadlineMs ms now).ns = now.ns + ms.toInt * 1000000 ∧ (deadlineMs ms now).Normalised) ↔
      now.tvNsec + ms.toInt % 1000 * 1000000 ≠ 1000000000 := by
  rw [normalised_deadlineMs_iff hnow hms]
  exact and_iff_right (ns_deadlineMs ms now)

theorem deadlineMs_correct_iff_carry :
    (deadlineMs 1500 ⟨7, 600000000⟩).ns = Timespec.ns ⟨7, 600000000⟩ + 1500 * 1000000 ∧
    (deadlineMs 1500 ⟨7, 600000000⟩).Normalised :=
  (deadlineMs_correct_iff (show Timespec.Normalised ⟨7, 600000000⟩ by decide) (by decide)).mpr
    (by decide)

/-- One millisecond after 999 milliseconds past the second. -/
theorem deadlineMs_unnormalised : ¬ ∀ (now : Timespec) (ms : Int64), now.Normalised →
    0 ≤ ms.toInt → ms.toInt < 2 ^ 31 →
    (deadlineMs ms now).ns = now.ns + ms.toInt * 1000000 ∧ (deadlineMs ms now).Normalised := by
  intro h
  have hn := (h ⟨7, 999000000⟩ 1 (by decide) (by decide) (by decide)).2
  exact absurd hn (by decide)

end Deadline

end PubSub
