import PubSub.Bus.Pushes

/-! The reading side: what `ps_get`, `ps_flush` and `ps_overflow` do to one
subscriber, and where the references of the slots they empty go. -/

namespace PubSub

open Lib

variable {Q : Type → Type} [PsQueue Q] [LawfulPsQueue Q]

section Get
variable {s s' : Bus Q} {su : SubId} {timeout : Int64} {msg : Option MsgId} {held : MsgId → ℕ}

theorem psGet_eq_some : psGet s su timeout = some (msg, s') ↔ ∃ S q,
    s.subscribers.get su = some S ∧ S.q.pull timeout = some (msg, q) ∧
    s' = s.modifySubscriber su fun _ => { S with q := q } := by
  simp only [psGet, Option.bind_eq_bind, Option.bind_eq_some_iff, Option.some.injEq, Prod.mk.injEq]
  constructor
  · rintro ⟨S, hS, ⟨msg', q⟩, hq, rfl, rfl⟩
    exact ⟨S, q, hS, hq, rfl⟩
  · rintro ⟨S, q, hS, hq, rfl⟩
    exact ⟨S, hS, (msg, q), hq, rfl, rfl⟩

/-- A pull takes one slot's reference out of the queue. -/
theorem pull_count {q q' : IdleQueue Q MsgId} (h : q.pull timeout = some (msg, q')) (i : MsgId) :
    q.items.count i = q'.items.count i + ownRef msg i := by
  rcases IdleQueue.pull_spec h with ⟨rfl, -, rfl⟩ | ⟨x, rfl, -, hx⟩
  · simp
  · rw [hx, List.count_cons, ownRef]
    simp

theorem psGet_sameShape (h : psGet s su timeout = some (msg, s')) : s.SameShape s' := by
  obtain ⟨S, q, hS, -, rfl⟩ := psGet_eq_some.mp h
  exact ⟨rfl, rfl, rfl, rfl, subsOf_modify_same hS rfl, .refl _⟩

/-- The client that reads a message owns the reference of its slot. -/
theorem psGet_refOk (h : psGet s su timeout = some (msg, s')) (hr : s.RefOk held) :
    s'.RefOk (held + ownRef msg) := by
  obtain ⟨S, q, hS, hq, rfl⟩ := psGet_eq_some.mp h
  have haccount : s.account held =
      (s.modifySubscriber su fun _ => { S with q := q }).account (held + ownRef msg) := by
    funext i
    have hslots := slotsOf_modify hS { S with q := q } i
    have hcount := pull_count hq i
    simp only [Bus.account, Bus.modifySubscriber, Pi.add_apply] at hslots ⊢
    omega
  rw [Bus.RefOk, haccount] at hr
  exact hr

end Get

section Flush
variable {s s' : Bus Q} {su : SubId} {S : PsSubscriber Q} {n : ℕ} {held : MsgId → ℕ}

/-- What `ps_flush` does: `n` messages leave the queue, which is empty then, and
each loses the reference of its slot. -/
structure Flushed (s : Bus Q) (su : SubId) (S : PsSubscriber Q) (n : ℕ) (s' : Bus Q)
    (q : IdleQueue Q MsgId) (ms : Messages) : Prop where
  state : s' = { s with
    messages := ms, subscribers := s.subscribers.modify su fun _ => { S with q := q } }
  empty : q.items = []
  capacity : q.capacity = S.q.capacity
  count : n = S.q.items.length
  content : s.messages.SameContent ms
  statOk : s.messages.StatOk → ms.StatOk
  refOk : ∀ rest, s.messages.RefOk (rest + fun i => S.q.items.count i) → ms.RefOk rest

theorem flushLoop_flushed {fuel k : ℕ} (hS : s.subscribers.get su = some S)
    (h : flushLoop su fuel k s = some (n, s')) :
    ∃ n' q ms, n = k + n' ∧ Flushed s su S n' s' q ms := by
  induction fuel generalizing k s S with
  | zero => cases h
  | succ fuel ih =>
    simp only [flushLoop, Option.bind_eq_bind, Option.bind_eq_some_iff] at h
    obtain ⟨⟨msg, s₁⟩, hget, h⟩ := h
    obtain ⟨S₁, q₁, hS₁, hq, hs₁⟩ := psGet_eq_some.mp hget
    rw [hS] at hS₁
    cases hS₁
    have hcount := pull_count hq
    rcases IdleQueue.pull_spec hq with ⟨rfl, hnil, rfl⟩ | ⟨x, rfl, hcap, hx⟩
    · cases h
      refine ⟨0, S.q, s.messages, rfl, hs₁, hnil, rfl, by simp [hnil], .refl _, id, fun rest hr => ?_⟩
      simpa [hnil, Pi.add_def] using hr
    · obtain ⟨ms₁, h₁, hloop⟩ := Option.bind_eq_some_iff.mp h
      subst hs₁
      have hS₁ : (s.subscribers.modify su fun _ => { S with q := q₁ }).get su =
          some { S with q := q₁ } := by rw [Cells.get_modify_self, hS, Option.map_some]
      obtain ⟨n', q, ms, rfl, hf⟩ := ih hS₁ hloop
      refine ⟨n' + 1, q, ms, by omega, ?_, hf.empty, hf.capacity.trans hcap, ?_,
        (psUnrefMsg_sameContent h₁).trans hf.content, fun h => hf.statOk (psUnrefMsg_statOk h₁ h),
        fun rest hr => ?_⟩
      · rw [hf.state]
        simp only [Bus.modifySubscriber, Cells.modify_modify_const]
      · rw [hx, List.length_cons, ← hf.count]
      · apply hf.refOk
        apply psUnrefMsg_refOk h₁
        have : (rest + fun i => S.q.items.count i) =
            (rest + fun i => q₁.items.count i) + ownRef (some x) := by
          funext i
          simp only [Pi.add_apply, hcount, Nat.add_assoc]
        rwa [this] at hr

theorem psFlush_flushed (h : psFlush s su = some (n, s')) :
    ∃ S q ms, s.subscribers.get su = some S ∧ Flushed s su S n s' q ms := by
  simp only [psFlush, Option.bind_eq_bind, Option.bind_eq_some_iff] at h
  obtain ⟨S, hS, h⟩ := h
  obtain ⟨n', q, ms, rfl, hf⟩ := flushLoop_flushed hS h
  exact ⟨S, q, ms, hS, by simpa using hf⟩

namespace Flushed
variable {q : IdleQueue Q MsgId} {ms : Messages}

theorem sameShape (h : Flushed s su S n s' q ms) (hS : s.subscribers.get su = some S) :
    s.SameShape s' := by
  obtain rfl := h.state
  exact ⟨rfl, rfl, rfl, rfl, subsOf_modify_same hS rfl, h.content⟩

theorem busRefOk (h : Flushed s su S n s' q ms) (hS : s.subscribers.get su = some S)
    (hr : s.RefOk held) : s'.RefOk held := by
  obtain rfl := h.state
  apply h.refOk
  have haccount : s.account held = slotsOf (s.subscribers.modify su fun _ => { S with q := q }) +
      stickies s.topicMap + held + fun i => S.q.items.count i := by
    funext i
    have hslots := slotsOf_modify hS { S with q := q } i
    simp only [h.empty, List.count_nil, Nat.add_zero] at hslots
    simp only [Bus.account, Pi.add_apply]
    omega
  rw [Bus.RefOk, haccount] at hr
  exact hr

end Flushed

theorem flushLoop_exists {fuel : ℕ} (k : ℕ) (hS : s.subscribers.get su = some S)
    (hf : S.q.items.length < fuel) {rest : MsgId → ℕ}
    (hr : s.messages.RefOk (rest + fun i => S.q.items.count i))
    (hw : s.messages.refWrap = false) : ∃ n s', flushLoop su fuel k s = some (n, s') ∧
      s'.messages.refWrap = false := by
  induction fuel generalizing k s S with
  | zero => omega
  | succ fuel ih =>
    obtain ⟨msg, q, hq⟩ := S.q.pull_isSome (t := 0) (.inr (by decide))
    have hget := psGet_eq_some.mpr ⟨S, q, hS, hq, rfl⟩
    have hcount := pull_count hq
    simp only [flushLoop, hget, Option.bind_eq_bind, Option.bind_some]
    rcases IdleQueue.pull_spec hq with ⟨rfl, -, rfl⟩ | ⟨x, rfl, -, hx⟩
    · exact ⟨k, _, rfl, hw⟩
    · have hsplit : (rest + fun i => S.q.items.count i) =
          (rest + fun i => q.items.count i) + ownRef (some x) := by
        funext i
        simp only [Pi.add_apply, hcount, Nat.add_assoc]
      rw [hsplit] at hr
      obtain ⟨ms, hms⟩ := psUnrefMsg_isSome hr hw
      have hlen : q.items.length < fuel := by
        rw [hx, List.length_cons] at hf
        omega
      simp only [Bus.modifySubscriber, hms, Option.bind_some]
      exact ih (S := { S with q := q }) (k + 1) (by rw [Cells.get_modify_self, hS, Option.map_some])
        hlen (psUnrefMsg_refOk hms hr) ((psUnrefMsg_refWrap hms).trans hw)

/-- `ps_flush` returns. -/
theorem psFlush_exists (hS : s.subscribers.get su = some S) (hr : s.RefOk held)
    (hw : s.messages.refWrap = false) :
    ∃ n s', psFlush s su = some (n, s') ∧ s'.messages.refWrap = false := by
  let rest : MsgId → ℕ := fun i => s.account held i - S.q.items.count i
  have hsplit : s.account held = rest + fun i => S.q.items.count i := by
    funext i
    have hle : S.q.items.count i ≤ slotsOf s.subscribers i :=
      Cells.le_sum hS fun S => S.q.items.count i
    simp only [rest, Bus.account, Pi.add_apply]
    omega
  rw [Bus.RefOk, hsplit] at hr
  simp only [psFlush, hS, Option.bind_eq_bind, Option.bind_some]
  exact flushLoop_exists 0 hS (by rw [IdleQueue.waiting_eq]; omega) hr hw

end Flush

section Overflow
variable {s s' : Bus Q} {su : SubId} {r : ℤ}

theorem psOverflow_eq_some (h : psOverflow s su = some (r, s')) : ∃ S,
    s.subscribers.get su = some S ∧ r = S.overflow.toInt32.toInt ∧
    s' = s.modifySubscriber su fun _ => { S with overflow := 0 } := by
  simp only [psOverflow, Option.bind_eq_bind, Option.bind_eq_some_iff, Option.some.injEq,
    Prod.mk.injEq] at h
  obtain ⟨S, hS, rfl, rfl⟩ := h
  exact ⟨S, hS, rfl, by rw [UInt32.sub_self]⟩

/-- A change of one subscriber that keeps its queue and its list of topics. -/
theorem modifySubscriber_sameShape {S S' : PsSubscriber Q} (hS : s.subscribers.get su = some S)
    (hsubs : S'.subs = S.subs) : s.SameShape (s.modifySubscriber su fun _ => S') :=
  ⟨rfl, rfl, rfl, rfl, subsOf_modify_same hS hsubs, .refl _⟩

theorem modifySubscriber_refOk {S S' : PsSubscriber Q} {held : MsgId → ℕ}
    (hS : s.subscribers.get su = some S) (hq : S'.q = S.q) (hr : s.RefOk held) :
    (s.modifySubscriber su fun _ => S').RefOk held := by
  have haccount : (s.modifySubscriber su fun _ => S').account held = s.account held := by
    funext i
    have hslots := slotsOf_modify hS S' i
    rw [hq] at hslots
    simp only [Bus.account, Bus.modifySubscriber, Pi.add_apply]
    omega
  rw [Bus.RefOk, haccount]
  exact hr

end Overflow

end PubSub
