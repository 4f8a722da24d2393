import Mathlib.Data.Int.Notation
import Mathlib.Data.Nat.Notation

/-! The counting semaphore of `sync.h`. A wait is one decrement of a positive
value; a wait on zero is a timeout or, for a negative timeout, a wait that only
another thread's post can end. The mutexes need no state here: a critical
section is one step. -/

namespace PubSub

/-- `semaphore_t`. -/
structure Semaphore where
  value : ℕ
  deriving DecidableEq

def semaphoreInit (value : ℕ) : Semaphore := ⟨value⟩

def semaphorePost (s : Semaphore) : Semaphore := ⟨s.value + 1⟩

def semaphoreGet (s : Semaphore) : ℕ := s.value

/-- The decrement of a wait that succeeds. -/
def semaphoreTake (s : Semaphore) : Option Semaphore :=
  match s.value with
  | 0 => none
  | n + 1 => some ⟨n⟩

/-- `semaphore_wait` while no other thread posts; `none` is a wait without end.
`sem_timedwait` is taken as it is documented: the deadline is not looked at when the
decrement can be done at once, which some C libraries do all the same. -/
def semaphoreWait (s : Semaphore) (timeoutMs : Int32) : Option (ℤ × Semaphore) :=
  match semaphoreTake s with
  | some s => some (0, s)
  | none => if timeoutMs < 0 then none else some (-1, s)

@[simp] theorem value_post (s : Semaphore) : (semaphorePost s).value = s.value + 1 := rfl

theorem semaphoreTake_eq_none {s : Semaphore} : semaphoreTake s = none ↔ s.value = 0 := by
  unfold semaphoreTake
  split <;> simp_all

theorem semaphoreTake_eq_some {s t : Semaphore} (h : semaphoreTake s = some t) :
    s.value = t.value + 1 := by
  unfold semaphoreTake at h
  split at h
  · cases h
  · cases h
    assumption

end PubSub
