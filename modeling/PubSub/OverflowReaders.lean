import PubSub.Bus.Pushes
import PubSub.Lib.Runs

/-! The overflow counter of one subscriber under any number of readers. A delivery
adds one in one atomic step. `ps_overflow` has two: it reads the counter and then
subtracts what it read, and any steps of other threads may run between them. -/

namespace PubSub

open Lib

/-- The counter, and what each call of `ps_overflow` between its two steps has read. -/
structure OverflowCounter where
  overflow : UInt32
  inProgress : List (ℕ × UInt32)

/-- One atomic step; `read` and `subtract` are those of a call by thread `t`. -/
inductive OverflowOp where
  | lose
  | read (t : ℕ)
  | subtract (t : ℕ)
  deriving DecidableEq

/-- A subtraction is the end of its call, which returns. -/
inductive OverflowRes where
  | done
  | returned (n : ℤ)
  deriving DecidableEq

namespace OverflowCounter

def step (s : OverflowCounter) : OverflowOp → Option (OverflowRes × OverflowCounter)
  | .lose => some (.done, { s with overflow := s.overflow + 1 })
  | .read t =>
    if t ∈ s.inProgress.map Prod.fst then none
    else some (.done, { s with inProgress := (t, s.overflow) :: s.inProgress })
  | .subtract t => do
    let n ← s.inProgress.lookup t
    some (.returned n.toInt32.toInt,
      ⟨s.overflow - n, s.inProgress.eraseP fun x => x.1 = t⟩)

/-- No call in progress. -/
def start : OverflowCounter := ⟨0, []⟩

end OverflowCounter

open OverflowCounter

abbrev OverflowEvent := OverflowOp × OverflowRes

/-- An interleaving of the steps of all threads. -/
abbrev OverflowCounter.Reaches (s : OverflowCounter) (h : List OverflowEvent)
    (s' : OverflowCounter) : Prop :=
  Run (fun s e s' => s.step e.1 = some (e.2, s')) s h s'

/-- The number of increments. -/
def losses (h : List OverflowEvent) : ℕ := h.countP fun e => e.1 = .lose

def OverflowRes.value : OverflowRes → ℤ
  | .done => 0
  | .returned n => n

/-- The sum of the values that the completed calls returned. -/
def reported (h : List OverflowEvent) : ℤ := (h.map fun e => e.2.value).sum

/-- What the calls in progress have read together. -/
def OverflowCounter.pending (s : OverflowCounter) : ℕ :=
  (s.inProgress.map fun x => x.2.toNat).sum

/-- No call reads the counter while another has read losses that it has not yet
subtracted. -/
def OverflowCounter.ReadsAlone (s : OverflowCounter) : OverflowOp → Prop
  | .read _ => ∀ x ∈ s.inProgress, x.2 = 0
  | _ => True

section Counts

@[simp] theorem losses_nil : losses [] = 0 := rfl

@[simp] theorem reported_nil : reported [] = 0 := rfl

theorem losses_append (h k : List OverflowEvent) : losses (h ++ k) = losses h + losses k :=
  List.countP_append

theorem reported_append (h k : List OverflowEvent) :
    reported (h ++ k) = reported h + reported k := by
  simp [reported]

theorem losses_snoc (h : List OverflowEvent) (e : OverflowEvent) :
    losses (h ++ [e]) = losses h + if e.1 = .lose then 1 else 0 := by
  rw [losses_append]
  simp [losses, List.countP_cons]

theorem reported_snoc (h : List OverflowEvent) (e : OverflowEvent) :
    reported (h ++ [e]) = reported h + e.2.value := by
  rw [reported_append]
  simp [reported]

end Counts

section Subtract
variable {s : OverflowCounter} {l : List (ℕ × UInt32)} {t : ℕ} {n : UInt32}

/-- A call that ends takes what it has read out of the sum. -/
theorem sum_eraseP (h : l.lookup t = some n) :
    (l.map fun x => x.2.toNat).sum =
      n.toNat + ((l.eraseP fun x => x.1 = t).map fun x => x.2.toNat).sum := by
  induction l with
  | nil => cases h
  | cons x l ih =>
    obtain ⟨u, k⟩ := x
    by_cases hu : u = t
    · subst hu
      obtain rfl : k = n := by simpa using h
      simp
    · have hne : (t == u) = false := beq_false_of_ne fun he => hu he.symm
      simp only [List.lookup_cons, hne] at h
      rw [List.eraseP_cons_of_neg (by simpa using hu), List.map_cons, List.sum_cons, List.map_cons,
        List.sum_cons, ih h]
      omega

/-- A value below `2^31` is returned as it was read. -/
theorem returned_eq (h : n.toNat < 2 ^ 31) : n.toInt32.toInt = n.toNat := by
  have h2 : 2 * n.toBitVec.toNat < 2 ^ 32 := by
    rw [UInt32.toNat_toBitVec]
    omega
  exact BitVec.toInt_eq_toNat_of_lt h2

end Subtract

/-- The calls in progress have read no more than there is, and every loss is either
reported or still counted. -/
structure Counted (h : List OverflowEvent) (s : OverflowCounter) : Prop where
  pending_le : s.pending ≤ s.overflow.toNat
  total : reported h + s.overflow.toNat = losses h
  nonneg : 0 ≤ reported h

theorem counted_start : Counted [] start := ⟨Nat.le_refl 0, rfl, Int.le_refl 0⟩

namespace Counted
variable {h : List OverflowEvent} {s s' : OverflowCounter} {op : OverflowOp} {res : OverflowRes}

theorem lose (hc : Counted h s) (hlt : losses h + 1 < 2 ^ 31) :
    Counted (h ++ [(.lose, .done)]) { s with overflow := s.overflow + 1 } := by
  obtain ⟨hle, htotal, hpos⟩ := hc
  have hadd : (s.overflow + 1).toNat = s.overflow.toNat + 1 := by
    rw [UInt32.toNat_add]
    exact Nat.mod_eq_of_lt (by simp only [UInt32.toNat_one]; omega)
  constructor
  · show s.pending ≤ (s.overflow + 1).toNat
    omega
  · rw [reported_snoc, losses_snoc, hadd]
    simp only [OverflowRes.value, if_true]
    omega
  · rw [reported_snoc]
    exact Int.add_nonneg hpos (Int.le_refl 0)

theorem read (hc : Counted h s) (t : ℕ) (halone : ∀ x ∈ s.inProgress, x.2 = 0) :
    Counted (h ++ [(.read t, .done)]) { s with inProgress := (t, s.overflow) :: s.inProgress } := by
  have hzero : s.pending = 0 := by
    rw [pending, List.sum_eq_zero]
    intro n hn
    obtain ⟨x, hx, rfl⟩ := List.mem_map.mp hn
    rw [halone x hx]
    rfl
  constructor
  · show s.overflow.toNat + s.pending ≤ s.overflow.toNat
    omega
  · rw [reported_snoc, losses_snoc]
    simpa [OverflowRes.value] using hc.total
  · rw [reported_snoc]
    exact Int.add_nonneg hc.nonneg (Int.le_refl 0)

/-- What a call has read is still in the counter when it subtracts. -/
theorem subtract (hc : Counted h s) (hlt : losses h < 2 ^ 31) {t : ℕ} {n : UInt32}
    (hn : s.inProgress.lookup t = some n) :
    Counted (h ++ [(.subtract t, .returned n.toInt32.toInt)])
      ⟨s.overflow - n, s.inProgress.eraseP fun x => x.1 = t⟩ := by
  obtain ⟨hle, htotal, hpos⟩ := hc
  rw [pending, sum_eraseP hn] at hle
  have hsub : (s.overflow - n).toNat = s.overflow.toNat - n.toNat :=
    UInt32.toNat_sub_of_le _ _ (UInt32.le_iff_toNat_le.mpr (by omega))
  have hret : n.toInt32.toInt = n.toNat := returned_eq (by omega)
  constructor
  · rw [pending]
    dsimp only
    omega
  · rw [reported_snoc, losses_snoc, hsub, OverflowRes.value, hret]
    simp only [reduceCtorEq, if_false]
    omega
  · rw [reported_snoc, OverflowRes.value, hret]
    omega

theorem step (hc : Counted h s) (hlt : losses (h ++ [(op, res)]) < 2 ^ 31)
    (halone : s.ReadsAlone op) (hs : s.step op = some (res, s')) :
    Counted (h ++ [(op, res)]) s' := by
  rw [losses_snoc] at hlt
  cases op with
  | lose =>
    cases hs
    exact hc.lose (by simpa using hlt)
  | read t =>
    rw [OverflowCounter.step] at hs
    split at hs
    case isTrue => cases hs
    case isFalse =>
      cases hs
      exact hc.read t halone
  | subtract t =>
    obtain ⟨n, hn, heq⟩ := Option.bind_eq_some_iff.mp hs
    cases heq
    exact hc.subtract (by omega) hn

end Counted

/-- The steps of a run whose reads are all made alone. -/
abbrev OverflowCounter.ReachesApart (s : OverflowCounter) (h : List OverflowEvent)
    (s' : OverflowCounter) : Prop :=
  Run (fun s e s' => s.step e.1 = some (e.2, s') ∧ s.ReadsAlone e.1) s h s'

theorem OverflowCounter.ReachesApart.counted {h : List OverflowEvent} {s : OverflowCounter}
    (hr : start.ReachesApart h s) (hlt : losses h < 2 ^ 31) : Counted h s := by
  revert hlt
  apply hr.history (P := fun h s => losses h < 2 ^ 31 → Counted h s)
  · intro _
    exact counted_start
  · intro h s e s' _ ih ⟨hs, halone⟩ hlt
    have hmono : losses h ≤ losses (h ++ [e]) := by
      rw [losses_append]
      omega
    exact (ih (by omega)).step hlt halone hs

/-! ### Two readers -/

/-- The calls in progress, ended one after the other. -/
def endAll (s : OverflowCounter) : List OverflowOp := s.inProgress.map fun x => .subtract x.1

/-- Each call that ends returns what it has read, whatever the counter holds by then. -/
theorem exec_endAll {s : OverflowCounter} (hlt : ∀ x ∈ s.inProgress, x.2.toNat < 2 ^ 31) :
    ∃ rs s', exec OverflowCounter.step (endAll s) s = some (rs, s') ∧ s'.inProgress = [] ∧
      losses ((endAll s).zip rs) = 0 ∧ reported ((endAll s).zip rs) = s.pending := by
  obtain ⟨n, l⟩ := s
  induction l generalizing n with
  | nil => exact ⟨[], _, rfl, rfl, rfl, rfl⟩
  | cons x l ih =>
    obtain ⟨t, k⟩ := x
    obtain ⟨rs, s', hexec, hnil, hlosses, hreported⟩ :=
      ih (n - k) fun x hx => hlt x (List.mem_cons_of_mem _ hx)
    have hk : k.toInt32.toInt = k.toNat := returned_eq (hlt (t, k) List.mem_cons_self)
    have hstep : OverflowCounter.step ⟨n, (t, k) :: l⟩ (.subtract t) =
        some (.returned k.toNat, ⟨n - k, l⟩) := by
      simp [OverflowCounter.step, hk]
    refine ⟨.returned k.toNat :: rs, s', ?_, hnil, ?_, ?_⟩
    · show exec _ (.subtract t :: endAll ⟨n - k, l⟩) _ = _
      simp only [exec, hstep, Option.bind_eq_bind, Option.bind_some]
      rw [hexec, Option.bind_some]
    · have hcons := losses_append [(.subtract t, .returned k.toNat)] ((endAll ⟨n - k, l⟩).zip rs)
      rw [hlosses] at hcons
      exact hcons
    · have hcons := reported_append [(.subtract t, .returned k.toNat)]
        ((endAll ⟨n - k, l⟩).zip rs)
      rw [hreported] at hcons
      refine hcons.trans ?_
      simp [reported, OverflowRes.value, pending]

/-- In every run whose reads are all made alone, with fewer than `2^31` losses, no more
losses are reported than there were, and while no call is in progress those reported and
those still counted are all of them. A read that is not made alone breaks this: the
calls then in progress report more losses than there were. -/
theorem overflow_counted {h : List OverflowEvent} {s : OverflowCounter}
    (hr : start.ReachesApart h s) (hlt : losses h < 2 ^ 31) :
    reported h ≤ losses h ∧ (s.inProgress = [] → reported h + s.overflow.toNat = losses h) ∧
    ∀ t s₁, s.step (.read t) = some (.done, s₁) → ¬ s.ReadsAlone (.read t) → ∃ k s₂,
      s₁.Reaches k s₂ ∧ s₂.inProgress = [] ∧ losses (h ++ (.read t, .done) :: k) = losses h ∧
      losses h < reported (h ++ (.read t, .done) :: k) := by
  obtain ⟨hle, htotal, hpos⟩ := hr.counted hlt
  refine ⟨by omega, fun _ => htotal, fun t s₁ hs hnot => ?_⟩
  rw [OverflowCounter.step] at hs
  split at hs
  case isTrue => cases hs
  case isFalse =>
    cases hs
    obtain ⟨x, hx, hne⟩ : ∃ x ∈ s.inProgress, x.2 ≠ 0 := by
      simpa [ReadsAlone] using hnot
    have hmem : ∀ y ∈ s.inProgress, y.2.toNat ≤ s.pending := fun y hy =>
      List.single_le_sum (by simp) _ (List.mem_map_of_mem hy)
    have hxpos : 0 < x.2.toNat := Nat.pos_of_ne_zero fun he => hne (UInt32.toNat_inj.mp he)
    have hxle := hmem x hx
    have hbound : ∀ y ∈ (t, s.overflow) :: s.inProgress, y.2.toNat < 2 ^ 31 := by
      intro y hy
      rcases List.mem_cons.mp hy with rfl | hy
      · show s.overflow.toNat < 2 ^ 31
        omega
      · have := hmem y hy
        omega
    obtain ⟨rs, s₂, hexec, hnil, hlosses, hreported⟩ :=
      exec_endAll (s := { s with inProgress := (t, s.overflow) :: s.inProgress }) hbound
    have hpending : pending { s with inProgress := (t, s.overflow) :: s.inProgress } =
        s.overflow.toNat + s.pending := rfl
    refine ⟨_, s₂, run_of_exec hexec, hnil, ?_, ?_⟩
    · rw [← List.singleton_append, losses_append, losses_append, hlosses]
      rfl
    · rw [← List.singleton_append, reported_append, reported_append, hreported, hpending]
      have hread : reported [(.read t, .done)] = 0 := rfl
      rw [hread]
      omega

/-- A loss between the two steps of a call is left for the next one. -/
theorem overflow_counted_between : ∃ (h : List OverflowEvent) (s : OverflowCounter),
    h.map Prod.fst = [.lose, .read 1, .lose, .subtract 1, .read 2, .subtract 2] ∧
    s.inProgress = [] ∧ reported h = 2 ∧ reported h + s.overflow.toNat = losses h := by
  have hrun : start.ReachesApart [(.lose, .done), (.read 1, .done), (.lose, .done),
      (.subtract 1, .returned 1), (.read 2, .done), (.subtract 2, .returned 1)] ⟨0, []⟩ :=
    (((((Run.single ⟨rfl, trivial⟩).snoc ⟨rfl, List.forall_mem_nil _⟩).snoc ⟨rfl, trivial⟩).snoc
      ⟨rfl, trivial⟩).snoc ⟨rfl, List.forall_mem_nil _⟩).snoc ⟨rfl, trivial⟩
  exact ⟨_, _, rfl, rfl, rfl, (overflow_counted hrun (by decide)).2.1 rfl⟩

/-- Two readers report one loss twice, and the counter wraps. -/
theorem overflow_reported_twice : ¬ ∀ (h : List OverflowEvent) (s : OverflowCounter),
    start.Reaches h s → losses h < 2 ^ 31 → reported h ≤ losses h ∧
      (s.inProgress = [] → reported h + s.overflow.toNat = losses h) := by
  intro hall
  have hexec : exec OverflowCounter.step [.lose, .read 1, .read 2, .subtract 1, .subtract 2] start =
      some ([.done, .done, .done, .returned 1, .returned 1], ⟨4294967295, []⟩) := rfl
  have hle := (hall _ _ (run_of_exec hexec) (by decide)).1
  exact absurd hle (by decide)

/-! ### The calls of one thread -/

section Calls
variable {Q : Type → Type} [PsQueue Q] [LawfulPsQueue Q] {s s' : Bus Q} {su : SubId}
  {S : PsSubscriber Q}

/-- `ps_overflow` is a read and a subtraction with nothing in between. -/
theorem psOverflow_stepped (t : ℕ) {n : ℤ} (hS : s.subscribers.get su = some S)
    (h : psOverflow s su = some (n, s')) : ∃ S', s'.subscribers.get su = some S' ∧
      exec OverflowCounter.step [.read t, .subtract t] ⟨S.overflow, []⟩ =
        some ([.done, .returned n], ⟨S'.overflow, []⟩) := by
  rw [psOverflow, hS] at h
  cases h
  refine ⟨{ S with overflow := S.overflow - S.overflow }, ?_, ?_⟩
  · simp [Bus.modifySubscriber, hS]
  · simp [exec, OverflowCounter.step]

/-- A push that is not stored, or that evicts, is one increment; another is none. -/
theorem pushSubscriberQueue_loses {via : Str} {msg : MsgId} {priority : UInt8} {r : ℤ}
    (hS : s.subscribers.get su = some S)
    (h : pushSubscriberQueue s su via msg priority = some (r, s')) :
    ∃ S', s'.subscribers.get su = some S' ∧
      exec OverflowCounter.step (if r = 0 then [] else [.lose]) ⟨S.overflow, []⟩ =
        some (if r = 0 then [] else [.done], ⟨S'.overflow, []⟩) := by
  obtain ⟨ret, hr, S₁, evicted, q, ms₁, ms₂, ms₃, hS₁, -, -, -, -, rfl⟩ :=
    pushSubscriberQueue_iff.mp h
  obtain rfl : S = S₁ := Option.some.inj (hS.symm.trans hS₁)
  refine ⟨_, by rw [Cells.get_modify_self, hS, Option.map_some], ?_⟩
  cases ret <;> simp [hr, exec, OverflowCounter.step]

end Calls

end PubSub
