import PubSub.Bus.Delivery
import PubSub.Bus.Table
import PubSub.Lib.Runs

/-! What a push does, said once, and what a sequence of pushes keeps. -/

namespace PubSub

open Lib

variable {Q : Type → Type} [PsQueue Q] [LawfulPsQueue Q]

/-- The queue of each subscriber. -/
def queuesOf (c : Cells (PsSubscriber Q)) (su : SubId) : Option (IdleQueue Q MsgId) :=
  (c.get su).map PsSubscriber.q

/-- The topics that each subscriber lists as its own. -/
def subsOf (c : Cells (PsSubscriber Q)) (su : SubId) : Option (List TopicId) :=
  (c.get su).map PsSubscriber.subs

/-- The number of queue slots that hold each message. -/
def slotsOf (c : Cells (PsSubscriber Q)) (i : MsgId) : ℕ := c.sum fun S => S.q.items.count i

section Modify
variable {c : Cells (PsSubscriber Q)} {su : SubId} {S : PsSubscriber Q}

theorem queuesOf_modify (hS : c.get su = some S) (S' : PsSubscriber Q) :
    queuesOf (c.modify su fun _ => S') = Function.update (queuesOf c) su (some S'.q) := by
  funext x
  rw [queuesOf, Cells.get_modify, Function.update_apply]
  split
  case isTrue hx =>
    subst hx
    rw [hS]
    rfl
  case isFalse => rfl

theorem subsOf_modify (hS : c.get su = some S) (S' : PsSubscriber Q) :
    subsOf (c.modify su fun _ => S') = Function.update (subsOf c) su (some S'.subs) := by
  funext x
  rw [subsOf, Cells.get_modify, Function.update_apply]
  split
  case isTrue hx =>
    subst hx
    rw [hS]
    rfl
  case isFalse => rfl

theorem queuesOf_eq_some {q : IdleQueue Q MsgId} :
    queuesOf c su = some q ↔ ∃ S, c.get su = some S ∧ S.q = q := Option.map_eq_some_iff

theorem subsOf_of_get (hS : c.get su = some S) : subsOf c su = some S.subs := by
  rw [subsOf, hS, Option.map_some]

/-- A change that leaves the list of topics alone. -/
theorem subsOf_modify_same (hS : c.get su = some S) {S' : PsSubscriber Q} (h : S'.subs = S.subs) :
    subsOf (c.modify su fun _ => S') = subsOf c := by
  rw [subsOf_modify hS, h, ← subsOf_of_get hS, Function.update_eq_self]

theorem slotsOf_modify (hS : c.get su = some S) (S' : PsSubscriber Q) (i : MsgId) :
    slotsOf (c.modify su fun _ => S') i + S.q.items.count i = slotsOf c i + S'.q.items.count i :=
  Cells.sum_modify hS _ fun S => S.q.items.count i

end Modify

namespace Bus

/-- The references to each message: by queue slots, by topics, and the `held` ones. -/
def account (s : Bus Q) (held : MsgId → ℕ) : MsgId → ℕ :=
  slotsOf s.subscribers + stickies s.topicMap + held

def RefOk (s : Bus Q) (held : MsgId → ℕ) : Prop := s.messages.RefOk (s.account held)

/-- The counters are right, and that of `msg`, to which there is a held reference,
has room for `k` more. -/
structure Ready (s : Bus Q) (held : MsgId → ℕ) (msg : MsgId) (k : ℕ) : Prop where
  refOk : s.RefOk held
  noWrap : s.messages.refWrap = false
  owned : 0 < held msg
  room : s.messages.Room msg k

theorem Ready.mono {s : Bus Q} {held : MsgId → ℕ} {msg : MsgId} {j k : ℕ}
    (h : s.Ready held msg k) (hjk : j ≤ k) : s.Ready held msg j :=
  ⟨h.refOk, h.noWrap, h.owned, h.room.mono hjk⟩

/-- The message exists. -/
theorem Ready.live {s : Bus Q} {held : MsgId → ℕ} {msg : MsgId} {k : ℕ}
    (h : s.Ready held msg k) : ∃ m, s.messages.cells.get msg = some m := by
  apply Option.isSome_iff_exists.mp
  apply (h.refOk h.noWrap msg).2.mpr
  have := h.owned
  simp only [account, Pi.add_apply]
  omega

/-- What every call on queues leaves as it is. -/
structure SameShape (s s' : Bus Q) : Prop where
  topicMap : s'.topicMap = s.topicMap
  uuidCtr : s'.uuidCtr = s.uuidCtr
  statLiveSubscribers : s'.statLiveSubscribers = s.statLiveSubscribers
  next : s'.subscribers.next = s.subscribers.next
  subsOf : subsOf s'.subscribers = subsOf s.subscribers
  content : s.messages.SameContent s'.messages

theorem SameShape.refl (s : Bus Q) : SameShape s s := ⟨rfl, rfl, rfl, rfl, rfl, .refl _⟩

theorem SameShape.trans {a b c : Bus Q} (h₁ : SameShape a b) (h₂ : SameShape b c) :
    SameShape a c where
  topicMap := h₂.topicMap.trans h₁.topicMap
  uuidCtr := h₂.uuidCtr.trans h₁.uuidCtr
  statLiveSubscribers := h₂.statLiveSubscribers.trans h₁.statLiveSubscribers
  next := h₂.next.trans h₁.next
  subsOf := h₂.subsOf.trans h₁.subsOf
  content := h₁.content.trans h₂.content

end Bus

/-- The reference that a rejected message loses again. -/
def rejected (ret : QueueRet) (msg : MsgId) : Option MsgId :=
  if ret = .efull then some msg else none

/-- A push adds one slot, less the one it evicts or the one it is refused. -/
theorem Pushed.count {cap : ℕ} {l l' : List MsgId} {m : MsgId} {ret : QueueRet}
    {evicted : Option MsgId} (h : Pushed cap l m ret evicted l') (i : MsgId) :
    l'.count i + ownRef evicted i + ownRef (rejected ret m) i = l.count i + ownRef (some m) i := by
  have hcons : ∀ x : MsgId, ∀ l : List MsgId, (x :: l).count i = l.count i + ownRef (some x) i := by
    intro x l
    rw [List.count_cons, ownRef]
    simp
  cases h with
  | ok _ hp =>
    rw [hp.count_eq, hcons]
    simp [rejected]
  | efull => simp [rejected]
  | eoverflow _ hp =>
    have := hp.count_eq i
    rw [hcons, hcons] at this
    simpa [rejected] using this

/-- The step of one push: the queue's answer, the reference taken for the slot,
those given back, and the records. -/
def PushStep (s : Bus Q) (p : Push) (s' : Bus Q) : Prop :=
  ∃ S evicted q ms₁ ms₂ ms₃,
    s.subscribers.get p.su = some S ∧ S.q.push p.msg p.priority = some (p.ret, evicted, q) ∧
    psRefMsg s.messages (some p.msg) = some ms₁ ∧ psUnrefMsg ms₁ evicted = some ms₂ ∧
    psUnrefMsg ms₂ (rejected p.ret p.msg) = some ms₃ ∧
    s' = { s with
      messages := ms₃
      subscribers := s.subscribers.modify p.su fun _ =>
        { S with q := q, overflow := if p.ret = .ok then S.overflow else S.overflow + 1 }
      callbacks := s.callbacks ++ if p.ret = .ok then deliveryCallbacks p.su S q.waiting else []
      pushes := s.pushes ++ [p] }

/-- `push_subscriber_queue` is that step, and returns 0 for a message that took a
free slot. -/
theorem pushSubscriberQueue_iff {s s' : Bus Q} {su : SubId} {via : Str} {msg : MsgId}
    {priority : UInt8} {r : ℤ} :
    pushSubscriberQueue s su via msg priority = some (r, s') ↔
      ∃ ret, r = (if ret = QueueRet.ok then 0 else -1) ∧
        PushStep s ⟨su, via, msg, priority, ret⟩ s' := by
  simp only [pushSubscriberQueue, PushStep, Option.bind_eq_bind, Option.bind_eq_some_iff]
  constructor
  · rintro ⟨ms₁, h₁, S, hS, ⟨ret, evicted, q⟩, hq, ms₂, h₂, h⟩
    refine ⟨ret, ?_⟩
    cases ret with
    | ok =>
      cases h
      exact ⟨rfl, S, evicted, q, ms₁, ms₂, ms₂, hS, hq, h₁, h₂, rfl, rfl⟩
    | efull =>
      obtain ⟨ms₃, h₃, h⟩ := Option.bind_eq_some_iff.mp h
      cases h
      refine ⟨rfl, S, evicted, q, ms₁, ms₂, ms₃, hS, hq, h₁, h₂, h₃, ?_⟩
      simp
    | eoverflow =>
      cases h
      refine ⟨rfl, S, evicted, q, ms₁, ms₂, ms₂, hS, hq, h₁, h₂, rfl, ?_⟩
      simp
  · rintro ⟨ret, hr, S, evicted, q, ms₁, ms₂, ms₃, hS, hq, h₁, h₂, h₃, rfl⟩
    refine ⟨ms₁, h₁, S, hS, (ret, evicted, q), hq, ms₂, h₂, ?_⟩
    cases ret with
    | ok =>
      cases h₃
      simp [hr]
    | efull =>
      have h₃' : psUnrefMsg ms₂ (some msg) = some ms₃ := h₃
      simp [h₃', hr]
    | eoverflow =>
      cases h₃
      simp [hr]

namespace PushStep
variable {s s' : Bus Q} {p : Push} {held : MsgId → ℕ}

theorem sameShape (h : PushStep s p s') : s.SameShape s' := by
  obtain ⟨S, evicted, q, ms₁, ms₂, ms₃, hS, -, h₁, h₂, h₃, rfl⟩ := h
  refine ⟨rfl, rfl, rfl, rfl, subsOf_modify_same hS rfl, ?_⟩
  exact ((psRefMsg_sameContent h₁).trans (psUnrefMsg_sameContent h₂)).trans
    (psUnrefMsg_sameContent h₃)

theorem pushes (h : PushStep s p s') : s'.pushes = s.pushes ++ [p] := by
  obtain ⟨S, evicted, q, ms₁, ms₂, ms₃, -, -, -, -, -, rfl⟩ := h
  rfl

theorem queues (h : PushStep s p s') : ∃ q evicted q', queuesOf s.subscribers p.su = some q ∧
    q.push p.msg p.priority = some (p.ret, evicted, q') ∧
    queuesOf s'.subscribers = Function.update (queuesOf s.subscribers) p.su (some q') := by
  obtain ⟨S, evicted, q, ms₁, ms₂, ms₃, hS, hq, -, -, -, rfl⟩ := h
  exact ⟨S.q, evicted, q, queuesOf_eq_some.mpr ⟨S, hS, rfl⟩, hq, queuesOf_modify hS _⟩

/-- The other subscribers are not touched. -/
theorem get_other {x : SubId} (h : PushStep s p s') (hx : x ≠ p.su) :
    s'.subscribers.get x = s.subscribers.get x := by
  obtain ⟨S, evicted, q, ms₁, ms₂, ms₃, -, -, -, -, -, rfl⟩ := h
  exact Cells.get_modify_of_ne _ _ hx

theorem statOk (h : PushStep s p s') (hs : s.messages.StatOk) : s'.messages.StatOk := by
  obtain ⟨S, evicted, q, ms₁, ms₂, ms₃, -, -, h₁, h₂, h₃, rfl⟩ := h
  exact psUnrefMsg_statOk h₃ (psUnrefMsg_statOk h₂ (psRefMsg_statOk h₁ hs))

/-- The account before the push and after it, with the references that are still
to be given back. -/
theorem account_eq {c : Cells (PsSubscriber Q)} {su : SubId} {msg : MsgId} {priority : UInt8}
    {S : PsSubscriber Q} {ret : QueueRet} {evicted : Option MsgId} {q : IdleQueue Q MsgId}
    (hS : c.get su = some S) (hq : S.q.push msg priority = some (ret, evicted, q)) (n : UInt32)
    (others : MsgId → ℕ) :
    slotsOf c + others + ownRef (some msg) =
      slotsOf (c.modify su fun _ => { S with q := q, overflow := n }) + others +
        ownRef (rejected ret msg) + ownRef evicted := by
  funext i
  have hslots := slotsOf_modify hS { S with q := q, overflow := n } i
  have hcount := (IdleQueue.push_spec hq).2.count i
  simp only [Pi.add_apply] at hslots ⊢
  omega

theorem refOk_midway (h : s.RefOk held) {ms₁ : Messages} {S : PsSubscriber Q}
    {evicted : Option MsgId} {q : IdleQueue Q MsgId}
    (h₁ : psRefMsg s.messages (some p.msg) = some ms₁) (hS : s.subscribers.get p.su = some S)
    (hq : S.q.push p.msg p.priority = some (p.ret, evicted, q)) (n : UInt32) :
    ms₁.RefOk (slotsOf (s.subscribers.modify p.su fun _ => { S with q := q, overflow := n }) +
      stickies s.topicMap + held + ownRef (rejected p.ret p.msg) + ownRef evicted) := by
  have h := psRefMsg_refOk h₁ h
  rw [Bus.account, add_assoc (slotsOf _), account_eq hS hq n, ← add_assoc (slotsOf _)] at h
  exact h

theorem refOk (h : PushStep s p s') (hr : s.RefOk held) : s'.RefOk held := by
  obtain ⟨S, evicted, q, ms₁, ms₂, ms₃, hS, hq, h₁, h₂, h₃, rfl⟩ := h
  exact psUnrefMsg_refOk h₃ (psUnrefMsg_refOk h₂ (refOk_midway hr h₁ hS hq _))

theorem ready {k : ℕ} (h : PushStep s p s') (hr : s.Ready held p.msg (k + 1)) :
    s'.Ready held p.msg k := by
  have hok := h.refOk hr.refOk
  obtain ⟨S, evicted, q, ms₁, ms₂, ms₃, hS, hq, h₁, h₂, h₃, rfl⟩ := h
  have hmid := refOk_midway hr.refOk h₁ hS hq 0
  obtain ⟨hk₁, hw₁⟩ := psRefMsg_room h₁ hr.room
  obtain ⟨hk₂, hw₂⟩ := psUnrefMsg_room h₂ hmid (hw₁.trans hr.noWrap) hk₁
  obtain ⟨hk₃, hw₃⟩ := psUnrefMsg_room h₃ (psUnrefMsg_refOk h₂ hmid) hw₂ hk₂
  exact ⟨hok, hw₃, hr.owned, hk₃⟩

/-- A push takes one slot at most. -/
theorem account_le (h : PushStep s p s') (i : MsgId) :
    s'.account held i ≤ s.account held i + ownRef (some p.msg) i := by
  obtain ⟨S, evicted, q, ms₁, ms₂, ms₃, hS, hq, -, -, -, rfl⟩ := h
  have heq := congrFun (account_eq hS hq (if p.ret = .ok then S.overflow else S.overflow + 1)
    (stickies s.topicMap + held)) i
  simp only [Bus.account, Pi.add_apply] at heq ⊢
  omega

/-- A push to a live subscriber, of a message that exists and whose counter has room,
returns. -/
theorem exists_of_live {su : SubId} {msg : MsgId} {priority : UInt8} (via : Str)
    (hr : s.RefOk held) (hw : s.messages.refWrap = false) (hmsg : 0 < s.account held msg)
    (hroom : s.account held msg + 1 < 2 ^ 32) (hsu : (subsOf s.subscribers su).isSome)
    (hp : priority.toNat < 10) :
    ∃ ret s', PushStep s ⟨su, via, msg, priority, ret⟩ s' ∧ s'.messages.refWrap = false := by
  rw [subsOf, Option.isSome_map] at hsu
  obtain ⟨S, hS⟩ := Option.isSome_iff_exists.mp hsu
  obtain ⟨ret, evicted, q, hq⟩ := S.q.push_isSome msg hp
  obtain ⟨hrefs, hlive⟩ := hr hw msg
  have hk : s.messages.Room msg 1 := by
    intro m hm
    rw [Messages.refs_of_get hm] at hrefs
    omega
  obtain ⟨ms₁, h₁⟩ := psRefMsg_isSome (hlive.mpr hmsg)
  have hmid := refOk_midway (p := ⟨su, via, msg, priority, ret⟩) hr h₁ hS hq 0
  obtain ⟨hk₁, hw₁⟩ := psRefMsg_room h₁ hk
  have hw := hw₁.trans hw
  obtain ⟨ms₂, h₂⟩ := psUnrefMsg_isSome hmid hw
  obtain ⟨hk₂, hw₂⟩ := psUnrefMsg_room h₂ hmid hw hk₁
  obtain ⟨ms₃, h₃⟩ := psUnrefMsg_isSome (psUnrefMsg_refOk h₂ hmid) hw₂
  obtain ⟨-, hw₃⟩ := psUnrefMsg_room h₃ (psUnrefMsg_refOk h₂ hmid) hw₂ hk₂
  exact ⟨ret, _, ⟨S, evicted, q, ms₁, ms₂, ms₃, hS, hq, h₁, h₂, h₃, rfl⟩, hw₃⟩

theorem exists_of_ready {k : ℕ} {su : SubId} {msg : MsgId} {priority : UInt8} (via : Str)
    (hr : s.Ready held msg (k + 1)) (hsu : (subsOf s.subscribers su).isSome)
    (hp : priority.toNat < 10) : ∃ ret s', PushStep s ⟨su, via, msg, priority, ret⟩ s' := by
  obtain ⟨m, hm⟩ := hr.live
  obtain ⟨hrefs, hlive⟩ := hr.refOk hr.noWrap msg
  have hroom := hr.room m hm
  rw [Messages.refs_of_get hm] at hrefs
  obtain ⟨ret, s', hstep, -⟩ := exists_of_live via hr.refOk hr.noWrap
    (hlive.mp (by rw [hm]; rfl)) (by omega) hsu hp
  exact ⟨ret, s', hstep⟩

end PushStep

/-! ### Sequences of pushes -/

/-- The pushes `ps` made to one queue, each with its answer. -/
abbrev IdleQueue.Takes (q : IdleQueue Q MsgId) (ps : List Push) (q' : IdleQueue Q MsgId) : Prop :=
  Run (fun q (p : Push) q' => ∃ evicted, q.push p.msg p.priority = some (p.ret, evicted, q')) q ps q'

namespace Bus

/-- The pushes `ps`, one after the other. -/
abbrev Pushes (s : Bus Q) (ps : List Push) (s' : Bus Q) : Prop := Run PushStep s ps s'

namespace Pushes
variable {s s' : Bus Q} {ps : List Push} {held : MsgId → ℕ}

theorem sameShape (h : s.Pushes ps s') : s.SameShape s' :=
  h.invariant (P := s.SameShape) (.refl s) fun _ _ _ hs hp => hs.trans hp.sameShape

theorem pushes (h : s.Pushes ps s') : s'.pushes = s.pushes ++ ps := by
  induction h with
  | nil => simp
  | snoc _ hp ih => rw [hp.pushes, ih, List.append_assoc]

/-- A subscriber that no push is for keeps its queue. -/
theorem queuesOf_other {x : SubId} (h : s.Pushes ps s') (hx : ∀ p ∈ ps, p.su ≠ x) :
    queuesOf s'.subscribers x = queuesOf s.subscribers x := by
  induction h with
  | nil => rfl
  | @snoc ps t u p _ hp ih =>
    obtain ⟨q, evicted, q', -, -, hqs⟩ := hp.queues
    have hne : p.su ≠ x := hx p (by simp)
    rw [hqs, Function.update_of_ne hne.symm, ih fun p' hp' => hx p' (List.mem_append_left _ hp')]

/-- The queue of a subscriber that all pushes are for. -/
theorem takes {su : SubId} {q : IdleQueue Q MsgId} (h : s.Pushes ps s')
    (hps : ∀ p ∈ ps, p.su = su) (hq : queuesOf s.subscribers su = some q) :
    ∃ q', queuesOf s'.subscribers su = some q' ∧ q.Takes ps q' := by
  induction h with
  | nil => exact ⟨q, hq, .nil⟩
  | @snoc ps t u p _ hp ih =>
    obtain ⟨q₁, hq₁, htakes⟩ := ih fun p' hp' => hps p' (List.mem_append_left _ hp')
    obtain ⟨q₀, evicted, q', hq₀, hpush, hqs⟩ := hp.queues
    rw [hps p (by simp)] at hq₀ hqs
    obtain rfl : q₁ = q₀ := Option.some.inj (hq₁.symm.trans hq₀)
    exact ⟨q', by rw [hqs, Function.update_self], htakes.snoc ⟨evicted, hpush⟩⟩

theorem statOk (h : s.Pushes ps s') (hs : s.messages.StatOk) : s'.messages.StatOk :=
  h.invariant (P := fun s => s.messages.StatOk) hs fun _ _ _ hs hp => hp.statOk hs

theorem refOk (h : s.Pushes ps s') (hr : s.RefOk held) : s'.RefOk held :=
  h.invariant (P := fun s => s.RefOk held) hr fun _ _ _ hr hp => hp.refOk hr

theorem ready {msg : MsgId} {k : ℕ} (h : s.Pushes ps s') (hps : ∀ p ∈ ps, p.msg = msg)
    (hr : s.Ready held msg (k + ps.length)) : s'.Ready held msg k := by
  induction h generalizing k with
  | nil => exact hr
  | @snoc ps t u p _ hp ih =>
    have hlast : p.msg = msg := hps p (by simp)
    subst hlast
    apply hp.ready
    apply ih fun p' hp' => hps p' (List.mem_append_left _ hp')
    rw [List.length_append, List.length_singleton] at hr
    rwa [Nat.add_assoc, Nat.add_comm 1]

end Pushes

end Bus

end PubSub
