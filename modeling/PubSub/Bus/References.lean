import PubSub.Bus.State
import Mathlib.Tactic.Abel

/-! What the message functions do to the reference counters. `RefOk ms total`
says that the counters are those of an account `total` of the references to each
message, and that a message exists as long as its account is not 0. A function
is described by what it adds to the account. -/

namespace PubSub

open Lib

/-- The account of one reference, to the message that `o` points to. -/
def ownRef (o : Option MsgId) (i : MsgId) : ℕ := if o = some i then 1 else 0

@[simp] theorem ownRef_none : ownRef none = 0 := by
  funext i
  simp [ownRef]

@[simp] theorem ownRef_self (i : MsgId) : ownRef (some i) i = 1 := by simp [ownRef]

theorem ownRef_of_ne {i j : MsgId} (h : j ≠ i) : ownRef (some i) j = 0 := by
  simp [ownRef, h.symm]

namespace Messages

def refs (ms : Messages) (i : MsgId) : ℕ := (ms.cells.get i).elim 0 fun m => m.ref.toNat

/-- No counter has wrapped, or the counters are as `total` says. -/
def RefOk (ms : Messages) (total : MsgId → ℕ) : Prop :=
  ms.refWrap = false → ∀ i, ms.refs i = total i ∧ ((ms.cells.get i).isSome ↔ 0 < total i)

/-- The counter of `i` has room for `k` more references. -/
def Room (ms : Messages) (i : MsgId) (k : ℕ) : Prop :=
  ∀ m, ms.cells.get i = some m → m.ref.toNat + k < 2 ^ 32

def StatOk (ms : Messages) : Prop := ms.statLiveMsg = UInt32.ofNat ms.cells.size

/-- The messages of `ms'` are messages of `ms`, with other counters at most. -/
structure SameContent (ms ms' : Messages) : Prop where
  next : ms'.cells.next = ms.cells.next
  wrap : ms'.refWrap = false → ms.refWrap = false
  content : ∀ i m', ms'.cells.get i = some m' →
    ∃ m, ms.cells.get i = some m ∧ m' = { m with ref := m'.ref }

theorem SameContent.refl (ms : Messages) : SameContent ms ms :=
  ⟨rfl, id, fun _ m h => ⟨m, h, rfl⟩⟩

theorem SameContent.trans {a b c : Messages} (h₁ : SameContent a b) (h₂ : SameContent b c) :
    SameContent a c := by
  refine ⟨h₂.next.trans h₁.next, fun h => h₁.wrap (h₂.wrap h), fun i m' h => ?_⟩
  obtain ⟨m₂, hm₂, he₂⟩ := h₂.content i m' h
  obtain ⟨m₁, hm₁, he₁⟩ := h₁.content i m₂ hm₂
  exact ⟨m₁, hm₁, by rw [he₂, he₁]⟩

theorem Room.mono {ms : Messages} {i : MsgId} {j k : ℕ} (h : ms.Room i k) (hjk : j ≤ k) :
    ms.Room i j := fun m hm => by
  have := h m hm
  omega

theorem refs_of_get {ms : Messages} {i : MsgId} {m : PsMsg} (h : ms.cells.get i = some m) :
    ms.refs i = m.ref.toNat := by
  rw [refs, h]
  rfl

theorem refs_of_next_le {ms : Messages} {i : MsgId} (h : ms.cells.next ≤ i) : ms.refs i = 0 := by
  rw [refs, ms.cells.fresh i h, Option.elim_none]

/-- The only message ever made has one reference. -/
theorem refs_le_one {ms : Messages} (hnext : ms.cells.next = 1) (hrefs : ms.refs 0 = 1)
    (i : MsgId) : ms.refs i ≤ 1 := by
  rcases Nat.eq_zero_or_pos i with rfl | hi
  · exact hrefs.le
  · rw [refs_of_next_le (hnext.le.trans hi)]
    exact Nat.zero_le 1

theorem refs_congr {ms ms' : Messages} {i : MsgId} (h : ms'.cells.get i = ms.cells.get i) :
    ms'.refs i = ms.refs i := by
  rw [refs, refs, h]

end Messages

open Messages

section Ref
variable {ms ms' : Messages} {msg : MsgId}

theorem psRefMsg_eq_some :
    psRefMsg ms (some msg) = some ms' ↔ ∃ m, ms.cells.get msg = some m ∧
      ms' = { ms with
        cells := ms.cells.modify msg fun m => { m with ref := m.ref + 1 }
        refWrap := ms.refWrap || m.ref + 1 = 0 } := by
  simp only [psRefMsg, Option.bind_eq_bind, Option.bind_eq_some_iff, Option.some.injEq]
  constructor <;> rintro ⟨m, hm, h⟩ <;> exact ⟨m, hm, h.symm⟩

theorem psRefMsg_refOk {total : MsgId → ℕ} (h : psRefMsg ms (some msg) = some ms')
    (hr : RefOk ms total) : RefOk ms' (total + ownRef (some msg)) := by
  obtain ⟨m, hm, rfl⟩ := psRefMsg_eq_some.mp h
  intro hw i
  simp only [Bool.or_eq_false_iff, decide_eq_false_iff_not] at hw
  obtain ⟨hrefs, hlive⟩ := hr hw.1 i
  by_cases hi : i = msg
  · subst hi
    have hadd : (m.ref + 1).toNat = m.ref.toNat + 1 := by
      have h0 : (m.ref + 1).toNat ≠ 0 := fun h => hw.2 (UInt32.toNat_inj.mp h)
      have := m.ref.toNat_lt
      rw [UInt32.toNat_add] at h0 ⊢
      simp only [UInt32.reduceToNat] at h0 ⊢
      omega
    rw [refs_of_get hm] at hrefs
    simp [refs, hm, hadd, hrefs]
  · have hget := Cells.get_modify_of_ne ms.cells (fun m => { m with ref := m.ref + 1 }) hi
    rw [refs_congr hget, hget, Pi.add_apply, ownRef_of_ne hi, Nat.add_zero]
    exact ⟨hrefs, hlive⟩

theorem psRefMsg_sameContent (h : psRefMsg ms (some msg) = some ms') : SameContent ms ms' := by
  obtain ⟨m, hm, rfl⟩ := psRefMsg_eq_some.mp h
  refine ⟨rfl, fun hw => ?_, fun i m' hi => ?_⟩
  · simp only [Bool.or_eq_false_iff] at hw
    exact hw.1
  · rw [Cells.get_modify] at hi
    split at hi
    · obtain ⟨m, hm, rfl⟩ := Option.map_eq_some_iff.mp hi
      exact ⟨m, hm, rfl⟩
    · exact ⟨m', hi, rfl⟩

theorem psRefMsg_statOk (h : psRefMsg ms (some msg) = some ms') (hs : StatOk ms) :
    StatOk ms' := by
  obtain ⟨m, hm, rfl⟩ := psRefMsg_eq_some.mp h
  simpa [StatOk] using hs

/-- With room for one more reference, taking it keeps the counter from wrapping. -/
theorem psRefMsg_room {k : ℕ} (h : psRefMsg ms (some msg) = some ms')
    (hk : Room ms msg (k + 1)) : Room ms' msg k ∧ ms'.refWrap = ms.refWrap := by
  obtain ⟨m, hm, rfl⟩ := psRefMsg_eq_some.mp h
  have hroom := hk m hm
  have hadd : (m.ref + 1).toNat = m.ref.toNat + 1 := by
    rw [UInt32.toNat_add]
    simp only [UInt32.reduceToNat]
    omega
  constructor
  · intro m' hi
    rw [Cells.get_modify_self, hm, Option.map_some] at hi
    cases hi
    simp only [hadd]
    omega
  · have h0 : m.ref + 1 ≠ 0 := fun h => by
      rw [h] at hadd
      simp at hadd
    simp [h0]

theorem psRefMsg_isSome (h : (ms.cells.get msg).isSome) : ∃ ms', psRefMsg ms (some msg) = some ms' := by
  obtain ⟨m, hm⟩ := Option.isSome_iff_exists.mp h
  exact ⟨_, psRefMsg_eq_some.mpr ⟨m, hm, rfl⟩⟩

end Ref

section Unref
variable {ms ms' : Messages} {o : Option MsgId}

theorem psUnrefMsg_cases {msg : MsgId} (h : psUnrefMsg ms (some msg) = some ms') :
    ∃ m, ms.cells.get msg = some m ∧
      ((m.ref - 1 = 0 ∧
        ms' = { ms with cells := ms.cells.free msg, statLiveMsg := ms.statLiveMsg - 1 }) ∨
      (m.ref - 1 ≠ 0 ∧
        ms' = { ms with cells := ms.cells.modify msg fun m => { m with ref := m.ref - 1 } })) := by
  simp only [psUnrefMsg, Option.bind_eq_bind, Option.bind_eq_some_iff] at h
  obtain ⟨m, hm, h⟩ := h
  refine ⟨m, hm, ?_⟩
  split at h
  case isTrue h0 =>
    cases h
    exact .inl ⟨h0, rfl⟩
  case isFalse h0 =>
    cases h
    exact .inr ⟨h0, rfl⟩

/-- The counter after a reference is taken, if it does not wrap. -/
theorem toNat_add_one {x : UInt32} (h : x + 1 ≠ 0) : (x + 1).toNat = x.toNat + 1 := by
  have hne : (x + 1).toNat ≠ 0 := fun he => h (UInt32.toNat_inj.mp he)
  have := x.toNat_lt
  rw [UInt32.toNat_add] at hne ⊢
  simp only [UInt32.reduceToNat] at hne ⊢
  omega

/-- The counter after a release, for a counter that is not 0. -/
theorem toNat_sub_one {x : UInt32} (h : 0 < x.toNat) : (x - 1).toNat = x.toNat - 1 := by
  have := x.toNat_lt
  rw [UInt32.toNat_sub]
  simp only [UInt32.reduceToNat]
  omega

theorem psUnrefMsg_refOk {total : MsgId → ℕ} (h : psUnrefMsg ms o = some ms')
    (hr : RefOk ms (total + ownRef o)) : RefOk ms' total := by
  cases o with
  | none =>
    cases h
    simpa using hr
  | some msg =>
    obtain ⟨m, hm, hcases⟩ := psUnrefMsg_cases h
    intro hw i
    have hw' : ms.refWrap = false := by
      rcases hcases with ⟨-, rfl⟩ | ⟨-, rfl⟩ <;> exact hw
    obtain ⟨hrefs, hlive⟩ := hr hw' i
    by_cases hi : i = msg
    · subst hi
      simp only [Pi.add_apply, ownRef_self, refs_of_get hm] at hrefs
      have hsub := toNat_sub_one (x := m.ref) (by omega)
      rcases hcases with ⟨h0, rfl⟩ | ⟨h0, rfl⟩
      · rw [h0] at hsub
        simp only [UInt32.reduceToNat] at hsub
        simp [refs, Cells.get_free]
        omega
      · have hne : (m.ref - 1).toNat ≠ 0 := fun h => h0 (UInt32.toNat_inj.mp h)
        simp [refs, hm]
        omega
    · have hget : ms'.cells.get i = ms.cells.get i := by
        rcases hcases with ⟨-, rfl⟩ | ⟨-, rfl⟩
        · simp [Cells.get_free, hi]
        · exact Cells.get_modify_of_ne _ _ hi
      rw [Pi.add_apply, ownRef_of_ne hi, Nat.add_zero] at hrefs hlive
      rw [refs_congr hget, hget]
      exact ⟨hrefs, hlive⟩

theorem psUnrefMsg_sameContent (h : psUnrefMsg ms o = some ms') : SameContent ms ms' := by
  cases o with
  | none =>
    cases h
    exact .refl ms
  | some msg =>
    obtain ⟨m, hm, ⟨-, rfl⟩ | ⟨-, rfl⟩⟩ := psUnrefMsg_cases h
    · refine ⟨rfl, id, fun i m' hi => ?_⟩
      rw [Cells.get_free] at hi
      split at hi
      · cases hi
      · exact ⟨m', hi, rfl⟩
    · refine ⟨rfl, id, fun i m' hi => ?_⟩
      rw [Cells.get_modify] at hi
      split at hi
      · obtain ⟨m, hm, rfl⟩ := Option.map_eq_some_iff.mp hi
        exact ⟨m, hm, rfl⟩
      · exact ⟨m', hi, rfl⟩

theorem psUnrefMsg_refWrap (h : psUnrefMsg ms o = some ms') : ms'.refWrap = ms.refWrap := by
  cases o with
  | none =>
    cases h
    rfl
  | some msg => obtain ⟨m, -, ⟨-, rfl⟩ | ⟨-, rfl⟩⟩ := psUnrefMsg_cases h <;> rfl

theorem psUnrefMsg_statOk (h : psUnrefMsg ms o = some ms') (hs : StatOk ms) : StatOk ms' := by
  cases o with
  | none =>
    cases h
    exact hs
  | some msg =>
    obtain ⟨m, hm, ⟨-, rfl⟩ | ⟨-, rfl⟩⟩ := psUnrefMsg_cases h
    · have hsize := Cells.size_free hm
      simp only [StatOk, ← hsize] at hs ⊢
      rw [hs, UInt32.ofNat_add]
      exact UInt32.add_sub_cancel _ _
    · simpa [StatOk] using hs

theorem psUnrefMsg_room {total : MsgId → ℕ} {i : MsgId} {k : ℕ} (h : psUnrefMsg ms o = some ms')
    (hr : RefOk ms (total + ownRef o)) (hw : ms.refWrap = false) (hk : Room ms i k) :
    Room ms' i k ∧ ms'.refWrap = false := by
  cases o with
  | none =>
    cases h
    exact ⟨hk, hw⟩
  | some msg =>
    obtain ⟨m, hm, ⟨-, rfl⟩ | ⟨-, rfl⟩⟩ := psUnrefMsg_cases h
    · refine ⟨fun m' hi => ?_, hw⟩
      rw [Cells.get_free] at hi
      split at hi
      · cases hi
      · exact hk m' hi
    · refine ⟨fun m' hi => ?_, hw⟩
      rw [Cells.get_modify] at hi
      split at hi
      case isTrue him =>
        subst him
        rw [hm] at hi
        cases hi
        have hpos := (hr hw i).1
        simp only [Pi.add_apply, ownRef_self, refs_of_get hm] at hpos
        have := hk m hm
        simp only [toNat_sub_one (x := m.ref) (by omega)]
        omega
      case isFalse => exact hk m' hi

theorem psUnrefMsg_isSome {total : MsgId → ℕ} (hr : RefOk ms (total + ownRef o))
    (hw : ms.refWrap = false) : ∃ ms', psUnrefMsg ms o = some ms' := by
  cases o with
  | none => exact ⟨ms, rfl⟩
  | some msg =>
    have hlive := (hr hw msg).2.mpr (by simp)
    obtain ⟨m, hm⟩ := Option.isSome_iff_exists.mp hlive
    simp only [psUnrefMsg, hm, Option.bind_eq_bind, Option.bind_some]
    split
    · exact ⟨_, rfl⟩
    · exact ⟨_, rfl⟩

end Unref

section Alloc
variable {ms ms' : Messages}

/-- A new message starts with the one reference of the client that made it. -/
theorem allocMsg_refOk {total : MsgId → ℕ} {m : PsMsg} (hm : m.ref = 1) (hr : RefOk ms total) :
    RefOk (allocMsg ms m).2 (total + ownRef (some (allocMsg ms m).1)) := by
  intro hw i
  obtain ⟨hrefs, hlive⟩ := hr hw i
  by_cases hi : i = ms.cells.next
  · subst hi
    have hdead := ms.cells.get_next
    have hz : total ms.cells.next = 0 := by
      rw [← hrefs, refs, hdead]
      rfl
    simp [allocMsg, refs, hm, hz]
  · have hget : (ms.cells.alloc m).get i = ms.cells.get i := by rw [Cells.get_alloc, if_neg hi]
    simpa [allocMsg, refs, hget, ownRef, Ne.symm hi] using ⟨hrefs, hlive⟩

theorem allocMsg_statOk {m : PsMsg} (hs : StatOk ms) : StatOk (allocMsg ms m).2 := by
  simp only [StatOk, allocMsg, Cells.size_alloc, UInt32.ofNat_add] at hs ⊢
  rw [hs]
  rfl

theorem psNewMsg_cases {topic : Option Str} {flags : UInt32} {args : PsValue} {msg : Option MsgId}
    (h : psNewMsg ms topic flags args = some (msg, ms')) :
    (topic = none ∧ msg = none ∧ ms' = ms) ∨
    (∃ m, m.ref = 1 ∧ m.topic = topic ∧ msg = some ms.cells.next ∧ ms' = (allocMsg ms m).2) := by
  cases topic with
  | none =>
    cases h
    exact .inl ⟨rfl, rfl, rfl⟩
  | some topic =>
    simp only [psNewMsg, Option.bind_eq_bind, Option.bind_eq_some_iff, Option.some.injEq,
      Prod.mk.injEq] at h
    obtain ⟨m, hm, rfl, rfl⟩ := h
    obtain ⟨href, htopic, -⟩ := psMsgSetVvalue_eq_some hm
    exact .inr ⟨m, href, htopic, rfl, rfl⟩

theorem psDupMsg_eq_some {orig msg : MsgId} (h : psDupMsg ms orig = some (msg, ms')) :
    ∃ m, ms.cells.get orig = some m ∧ (msg, ms') = allocMsg ms { m with ref := 1, value := dupValue m } := by
  simp only [psDupMsg, Option.bind_eq_bind, Option.bind_eq_some_iff, Option.some.injEq] at h
  obtain ⟨m, hm, h⟩ := h
  exact ⟨m, hm, h.symm⟩

/-- A change of a message that leaves its counter leaves the account. -/
theorem refOk_modify {total : MsgId → ℕ} {i : MsgId} {m m' : PsMsg}
    (hm : ms.cells.get i = some m) (href : m'.ref = m.ref) (hr : RefOk ms total) :
    RefOk { ms with cells := ms.cells.modify i fun _ => m' } total := by
  intro hw j
  obtain ⟨hrefs, hlive⟩ := hr hw j
  by_cases hj : j = i
  · subst hj
    rw [refs_of_get hm] at hrefs
    simpa [refs, hm, href, hrefs] using hlive
  · have hget := Cells.get_modify_of_ne ms.cells (fun _ => m') hj
    rw [refs_congr hget, hget]
    exact ⟨hrefs, hlive⟩

end Alloc

end PubSub
