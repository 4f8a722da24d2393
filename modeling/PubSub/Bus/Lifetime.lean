import PubSub.Bus.Routing
import PubSub.Bus.Subscriptions

/-! The remaining calls, by composition: lists of subscriptions, the life of a
subscriber, a publish, and the calls on a temporary subscriber. -/

namespace PubSub

open Lib Bus

variable {Q : Type → Type} [PsQueue Q] [LawfulPsQueue Q]

/-! ### Lists of subscriptions -/

section Many
variable {s s' : Bus Q} {su : SubId} {n : ℕ} {R : Bus Q → Bus Q → Prop}

/-- A loop over a list of topics, by what is still to come of it. -/
theorem countOks_induct {f : Bus Q → Str → Option (ℤ × Bus Q)} {topics : List Str}
    {R : List Str → ℕ → Bus Q → Bus Q → Prop} (hnil : ∀ s : Bus Q, s.Ok → R [] 0 s s)
    (hf : ∀ (s s' : Bus Q) topic r, s.Ok → f s topic = some (r, s') → s'.Ok)
    (hcons : ∀ topic topics r k a b c, a.Ok → f a topic = some (r, b) → R topics k b c →
      R (topic :: topics) ((if r = 0 then 1 else 0) + k) a c) (hok : s.Ok)
    (h : countOks f topics s = some (n, s')) : R topics n s s' := by
  induction topics generalizing s n with
  | nil =>
    cases h
    exact hnil _ hok
  | cons topic topics ih =>
    simp only [countOks, Option.bind_eq_bind, Option.bind_eq_some_iff] at h
    obtain ⟨⟨r, s₁⟩, h₁, ⟨k, s₂⟩, h₂, heq⟩ := h
    cases heq
    have hall := hcons topic topics r k s s₁ _ hok h₁ (ih (hf s s₁ topic r hok h₁) h₂)
    have hn : (if r = 0 then 1 else 0) + k = if r = 0 then k + 1 else k := by
      split <;> omega
    rwa [hn] at hall

/-- The loop returns if every call does. -/
theorem countOks_exists {f : Bus Q → Str → Option (ℤ × Bus Q)} (topics : List Str)
    (hf : ∀ (s : Bus Q) topic, s.Ok → ∃ r s', f s topic = some (r, s') ∧ s'.Ok) (hok : s.Ok) :
    ∃ n s', countOks f topics s = some (n, s') := by
  induction topics generalizing s with
  | nil => exact ⟨0, s, rfl⟩
  | cons topic topics ih =>
    obtain ⟨r, s₁, h₁, hok₁⟩ := hf s topic hok
    obtain ⟨k, s₂, h₂⟩ := ih hok₁
    simp only [countOks, h₁, h₂, Option.bind_eq_bind, Option.bind_some]
    exact ⟨_, s₂, rfl⟩

theorem psSubscribeMany_induct {subs : Option (List Str)} {R : List Str → ℕ → Bus Q → Bus Q → Prop}
    (hnil : ∀ s : Bus Q, s.Ok → R [] 0 s s)
    (hcons : ∀ topic topics r k a b c, a.Ok → psSubscribeFlags a su topic none = some (r, b) →
      R topics k b c → R (topic :: topics) ((if r = 0 then 1 else 0) + k) a c) (hok : s.Ok)
    (h : psSubscribeMany s su subs = some (n, s')) : R (subs.getD []) n s s' := by
  cases subs with
  | none =>
    cases h
    exact hnil _ hok
  | some subs =>
    exact countOks_induct hnil (fun _ _ _ _ hok h => (psSubscribeFlags_quiet hok h).1.ok) hcons hok h

theorem psUnsubscribeMany_induct {subs : Option (List Str)}
    {R : List Str → ℕ → Bus Q → Bus Q → Prop} (hnil : ∀ s : Bus Q, s.Ok → R [] 0 s s)
    (hcons : ∀ topic topics r k a b c, a.Ok → psUnsubscribe a su topic = some (r, b) →
      R topics k b c → R (topic :: topics) ((if r = 0 then 1 else 0) + k) a c) (hok : s.Ok)
    (h : psUnsubscribeMany s su subs = some (n, s')) : R (subs.getD []) n s s' := by
  cases subs with
  | none =>
    cases h
    exact hnil _ hok
  | some subs =>
    exact countOks_induct hnil (fun _ _ _ _ hok h => (psUnsubscribe_quiet hok h).1.ok) hcons hok h

/-- What every call of a list does between two states, the list does. -/
theorem psSubscribeMany_rule {subs : Option (List Str)} (hrefl : ∀ s : Bus Q, s.Ok → R s s)
    (htrans : ∀ a b c, R a b → R b c → R a c)
    (hf : ∀ (s s' : Bus Q) topic r, s.Ok → psSubscribeFlags s su topic none = some (r, s') → R s s')
    (hok : s.Ok) (h : psSubscribeMany s su subs = some (n, s')) : R s s' :=
  psSubscribeMany_induct (R := fun _ _ => R) hrefl
    (fun topic _ r _ a b c hok hab hbc => htrans a b c (hf a b topic r hok hab) hbc) hok h

theorem psUnsubscribeMany_rule {subs : Option (List Str)} (hrefl : ∀ s : Bus Q, s.Ok → R s s)
    (htrans : ∀ a b c, R a b → R b c → R a c)
    (hf : ∀ (s s' : Bus Q) topic r, s.Ok → psUnsubscribe s su topic = some (r, s') → R s s')
    (hok : s.Ok) (h : psUnsubscribeMany s su subs = some (n, s')) : R s s' :=
  psUnsubscribeMany_induct (R := fun _ _ => R) hrefl
    (fun topic _ r _ a b c hok hab hbc => htrans a b c (hf a b topic r hok hab) hbc) hok h

theorem psSubscribeMany_quiet {subs : Option (List Str)} (hok : s.Ok)
    (h : psSubscribeMany s su subs = some (n, s')) : Quiet s s' ∧ SameSubscribers s s' :=
  psSubscribeMany_rule (R := fun s s' => Quiet s s' ∧ SameSubscribers s s')
    (fun s hok => ⟨.refl hok, .refl s⟩) (fun _ _ _ h₁ h₂ => ⟨h₁.1.trans h₂.1, h₁.2.trans h₂.2⟩)
    (fun _ _ _ _ hok h => psSubscribeFlags_quiet hok h) hok h

theorem psUnsubscribeMany_quiet {subs : Option (List Str)} (hok : s.Ok)
    (h : psUnsubscribeMany s su subs = some (n, s')) : Quiet s s' ∧ SameSubscribers s s' :=
  psUnsubscribeMany_rule (R := fun s s' => Quiet s s' ∧ SameSubscribers s s')
    (fun s hok => ⟨.refl hok, .refl s⟩) (fun _ _ _ h₁ h₂ => ⟨h₁.1.trans h₂.1, h₁.2.trans h₂.2⟩)
    (fun _ _ _ _ hok h => psUnsubscribe_quiet hok h) hok h

theorem psUnsubscribeAll_quiet (hok : s.Ok) (h : psUnsubscribeAll s su = some (n, s')) :
    Quiet s s' ∧ SameSubscribers s s' := by
  obtain ⟨S, T, -, -, rfl, -, -, hq⟩ := psUnsubscribeAll_eq_some hok h
  exact ⟨hq, rfl, sameSubscribers_modify _ _, Cells.size_modify _ _ _, rfl⟩

end Many

/-! ### The life of a subscriber -/

namespace Bus

/-- `stat_live_subscribers` is the number of subscribers. -/
def SubStatOk (s : Bus Q) : Prop := s.statLiveSubscribers = UInt32.ofNat s.subscribers.size

theorem SameSubscribers.subStatOk {s s' : Bus Q} (h : SameSubscribers s s') (hs : s.SubStatOk) :
    s'.SubStatOk := by
  rw [SubStatOk, h.stat, h.size]
  exact hs

end Bus

section New
variable {s s' : Bus Q} {su : SubId} {queueSize : ℕ} {subs : Option (List Str)}

/-- A subscriber before its first subscription. -/
def newSubscriber (queueSize : ℕ) : PsSubscriber Q :=
  { q := .new queueSize, subs := [], overflow := 0, newMsgCb := none, nonEmptyCb := none }

/-- The bus with one more subscriber. -/
def addSubscriber (s : Bus Q) (queueSize : ℕ) : Bus Q :=
  { s with subscribers := s.subscribers.alloc (newSubscriber queueSize) }

theorem subsOf_alloc (c : Cells (PsSubscriber Q)) (S : PsSubscriber Q) :
    subsOf (c.alloc S) = Function.update (subsOf c) c.next (some S.subs) := by
  funext x
  rw [subsOf, Cells.get_alloc, Function.update_apply]
  split
  · rfl
  · rfl

theorem addSubscriber_quiet (hok : s.Ok) (queueSize : ℕ) : Quiet s (addSubscriber s queueSize) := by
  have hnone : subsOf s.subscribers s.subscribers.next = none := by
    rw [subsOf, Cells.get_next]
    rfl
  refine ⟨⟨hok.names, hok.alive, ?_, hok.statOk⟩, rfl, fun held hr => ?_, .refl _, rfl⟩
  · rw [addSubscriber, subsOf_alloc]
    exact hok.links.new hnone
  · have haccount : (addSubscriber s queueSize).account held = s.account held := by
      funext i
      simp [Bus.account, addSubscriber, slotsOf, Cells.sum_alloc, newSubscriber]
    rw [Bus.RefOk, haccount]
    exact hr

theorem psNewSubscriber_eq_some (h : psNewSubscriber s queueSize subs = some (su, s')) :
    su = s.subscribers.next ∧ ∃ n s₁,
      psSubscribeMany (addSubscriber s queueSize) s.subscribers.next subs = some (n, s₁) ∧
      s' = { s₁ with statLiveSubscribers := s₁.statLiveSubscribers + 1 } := by
  simp only [psNewSubscriber, Option.bind_eq_bind, Option.bind_eq_some_iff, Option.some.injEq,
    Prod.mk.injEq] at h
  obtain ⟨⟨n, s₁⟩, h₁, rfl, rfl⟩ := h
  exact ⟨rfl, n, s₁, h₁, rfl⟩

theorem psNewSubscriber_quiet (hok : s.Ok) (h : psNewSubscriber s queueSize subs = some (su, s')) :
    Quiet s s' := by
  obtain ⟨-, n, s₁, h₁, rfl⟩ := psNewSubscriber_eq_some h
  have hq := addSubscriber_quiet hok queueSize
  have hq₁ := hq.trans (psSubscribeMany_quiet hq.ok h₁).1
  exact ⟨⟨hq₁.ok.names, hq₁.ok.alive, hq₁.ok.links, hq₁.ok.statOk⟩, hq₁.sticky, hq₁.refOk,
    hq₁.content, hq₁.uuidCtr⟩

theorem psNewSubscriber_subStatOk (hok : s.Ok) (hs : s.SubStatOk)
    (h : psNewSubscriber s queueSize subs = some (su, s')) : s'.SubStatOk := by
  obtain ⟨-, n, s₁, h₁, rfl⟩ := psNewSubscriber_eq_some h
  have hsame := (psSubscribeMany_quiet (addSubscriber_quiet hok queueSize).ok h₁).2
  have hsize := hsame.size
  have hstat := hsame.stat
  simp only [addSubscriber, Cells.size_alloc] at hsize hstat
  rw [Bus.SubStatOk] at hs ⊢
  simp only [hsize, hstat, hs, UInt32.ofNat_add]
  rfl

end New

section Free
variable {s s' : Bus Q} {su : SubId}

/-- The subscriber at the end of its life: no topic lists it and its queue is empty. -/
theorem psFreeSubscriber_eq_some (hok : s.Ok) (h : psFreeSubscriber s su = some s') :
    ∃ s₂ S, Quiet s s₂ ∧ SameSubscribers s s₂ ∧ s₂.subscribers.get su = some S ∧ S.subs = [] ∧
      S.q.items = [] ∧ (s₂.pushes = s.pushes ∧ s₂.callbacks = s.callbacks) ∧
      (∀ x, x ≠ su → s₂.subscribers.get x = s.subscribers.get x) ∧
      (∀ name, entriesAt s₂.topicMap name = others su (entriesAt s.topicMap name)) ∧ s' = { s₂ with
        subscribers := s₂.subscribers.free su
        statLiveSubscribers := s₂.statLiveSubscribers - 1 } := by
  simp only [psFreeSubscriber, Option.bind_eq_bind, Option.bind_eq_some_iff, Option.some.injEq] at h
  obtain ⟨⟨n, s₁⟩, h₁, ⟨k, s₂⟩, h₂, S, hS, queued, hqueued, ms, hms, rfl⟩ := h
  have hq₁ := psUnsubscribeAll_quiet hok h₁
  obtain ⟨S₀, T, hS₀, -, rfl, -, hsub, -⟩ := psUnsubscribeAll_eq_some hok h₁
  obtain ⟨S₁, q, ms₂, hS₁, hf⟩ := psFlush_flushed h₂
  have hq₂ : Quiet _ s₂ := .of_sameShape hq₁.1.ok (hf.sameShape hS₁)
    (by rw [hf.state]; exact hf.statOk hq₁.1.ok.statOk) fun held hr => hf.busRefOk hS₁ hr
  have hsubs : S₁.subs = [] := by
    rw [Cells.get_modify_self, hS₀, Option.map_some] at hS₁
    cases hS₁
    rfl
  have hS' : S = { S₁ with q := q } := by
    rw [hf.state, Cells.get_modify_self, hS₁, Option.map_some] at hS
    exact (Option.some.inj hS).symm
  have hempty : S.q.items = [] := by
    rw [hS']
    exact hf.empty
  rw [IdleQueue.free_empty hempty] at hqueued
  cases hqueued
  cases hms
  have hsame : SameSubscribers s s₂ := by
    refine hq₁.2.trans ?_
    rw [hf.state]
    exact ⟨rfl, sameSubscribers_modify _ _, Cells.size_modify _ _ _, rfl⟩
  refine ⟨s₂, S, hq₁.1.trans hq₂, hsame, hS, by rw [hS']; exact hsubs, hempty, ?_, fun x hx => ?_,
    fun name => ?_, rfl⟩
  · rw [hf.state]
    exact ⟨rfl, rfl⟩
  · rw [hf.state]
    simp only [Cells.get_modify_of_ne _ _ hx]
  · rw [hf.state]
    exact hsub name

theorem psFreeSubscriber_quiet (hok : s.Ok) (h : psFreeSubscriber s su = some s') : Quiet s s' := by
  obtain ⟨s₂, S, hq, -, hS, hsubs, hitems, -, -, -, rfl⟩ := psFreeSubscriber_eq_some hok h
  refine hq.trans ⟨⟨hq.ok.names, hq.ok.alive, ?_, hq.ok.statOk⟩, rfl, fun held hr => ?_, .refl _, rfl⟩
  · have : subsOf (s₂.subscribers.free su) = Function.update (subsOf s₂.subscribers) su none := by
      funext x
      rw [subsOf, Cells.get_free, Function.update_apply]
      split
      · rfl
      · rfl
    rw [this]
    exact hq.ok.links.free (by rw [subsOf_of_get hS, hsubs])
  · have haccount : Bus.account { s₂ with
        subscribers := s₂.subscribers.free su
        statLiveSubscribers := s₂.statLiveSubscribers - 1 } held = s₂.account held := by
      funext i
      have := Cells.sum_free hS fun S => S.q.items.count i
      rw [hitems, List.count_nil, Nat.add_zero] at this
      simp only [Bus.account, slotsOf, Pi.add_apply, this]
    rw [Bus.RefOk, haccount]
    exact hr

theorem psFreeSubscriber_subStatOk (hok : s.Ok) (hs : s.SubStatOk)
    (h : psFreeSubscriber s su = some s') : s'.SubStatOk := by
  obtain ⟨s₂, S, -, hsame, hS, -, -, -, -, -, rfl⟩ := psFreeSubscriber_eq_some hok h
  have hs₂ := hsame.subStatOk hs
  have hsize := Cells.size_free hS
  rw [Bus.SubStatOk, ← hsize, UInt32.ofNat_add] at hs₂
  rw [Bus.SubStatOk]
  simp only [hs₂]
  exact UInt32.add_sub_cancel _ _

end Free

/-! ### `ps_publish` -/

namespace Published
variable {s s' : Bus Q} {msg : MsgId} {n : ℕ} {m : PsMsg} {topic : Str} {as : List Attempt}
  {s₀ s₁ : Bus Q} {held : MsgId → ℕ}

theorem noSpace (h : Published s msg n s' m topic as s₀ s₁) : ' ' ∉ topic := by
  obtain ⟨t, -, rfl⟩ := h.topic_eq
  exact not_mem_cutFlags t

theorem edit (h : Published s msg n s' m topic as s₀ s₁) (hok : s.Ok) :
    StickyEdit s.topicMap s'.topicMap topic (m.retained msg) := by
  obtain ⟨ms, -, rfl⟩ := h.release
  have := h.stickyStep.edit hok.names hok.alive h.noSpace
  simpa only [h.pushes.sameShape.topicMap] using this

theorem content (h : Published s msg n s' m topic as s₀ s₁) :
    s.messages.SameContent s'.messages := by
  obtain ⟨ms, hrel, rfl⟩ := h.release
  exact (h.stickyStep.sameContent.trans h.pushes.sameShape.content).trans
    (psUnrefMsg_sameContent hrel)

theorem ok (h : Published s msg n s' m topic as s₀ s₁) (hok : s.Ok) : s'.Ok := by
  have he := h.edit hok
  have hshape := h.pushes.sameShape
  obtain ⟨ms, hrel, rfl⟩ := h.release
  refine ⟨he.names, he.alive, ?_,
    psUnrefMsg_statOk hrel (h.pushes.statOk (h.stickyStep.statOk hok.statOk))⟩
  rw [he.entriesOf, hshape.subsOf, h.stickyStep.subscribers]
  exact hok.links

/-- The publish uses up the reference of its caller. -/
theorem refOk (h : Published s msg n s' m topic as s₀ s₁) (hok : s.Ok)
    (hr : s.RefOk (held + ownRef (some msg))) : s'.RefOk held := by
  have hr₀ := h.stickyStep.refOk hok.names hok.alive h.noSpace hr
  have hr₁ := h.pushes.refOk hr₀
  obtain ⟨ms, hrel, rfl⟩ := h.release
  rw [Bus.RefOk, Bus.account, ← add_assoc] at hr₁
  exact psUnrefMsg_refOk hrel hr₁

theorem sameSubscribers (h : Published s msg n s' m topic as s₀ s₁) : SameSubscribers s s' := by
  have hs₀ : SameSubscribers s s₀ := by
    obtain ⟨ms₁, ms₂, -, -, rfl⟩ := h.stickyStep
    exact ⟨rfl, fun _ => rfl, rfl, rfl⟩
  have hs₁ := hs₀.trans h.pushes.sameSubscribers
  obtain ⟨ms, -, rfl⟩ := h.release
  exact ⟨hs₁.next, hs₁.live, hs₁.size, hs₁.stat⟩

theorem uuidCtr (h : Published s msg n s' m topic as s₀ s₁) : s'.uuidCtr = s.uuidCtr := by
  have hs₀ : s₀.uuidCtr = s.uuidCtr := by
    obtain ⟨ms₁, ms₂, -, -, rfl⟩ := h.stickyStep
    rfl
  obtain ⟨ms, -, rfl⟩ := h.release
  exact h.pushes.sameShape.uuidCtr.trans hs₀

theorem log (h : Published s msg n s' m topic as s₀ s₁) :
    s'.pushes = s.pushes ++ as.map (Attempt.push msg) := by
  have hs₀ : s₀.pushes = s.pushes := by
    obtain ⟨ms₁, ms₂, -, -, rfl⟩ := h.stickyStep
    rfl
  obtain ⟨ms, -, rfl⟩ := h.release
  rw [← hs₀]
  exact h.pushes.pushes

theorem stickyAt (h : Published s msg n s' m topic as s₀ s₁) (hok : s.Ok) :
    stickyAt s'.topicMap = Function.update (stickyAt s.topicMap) topic (m.retained msg) :=
  (h.edit hok).stickyAt

end Published

/-! ### Reading with ownership -/

theorem psGet_ok {s s' : Bus Q} {su : SubId} {timeout : Int64} {msg : Option MsgId} (hok : s.Ok)
    (h : psGet s su timeout = some (msg, s')) :
    s'.Ok ∧ SameSubscribers s s' ∧ s'.topicMap = s.topicMap ∧ s'.messages = s.messages ∧
      s'.pushes = s.pushes ∧ s'.uuidCtr = s.uuidCtr := by
  have hshape := psGet_sameShape h
  obtain ⟨S, q, hS, -, rfl⟩ := psGet_eq_some.mp h
  exact ⟨hok.of_sameShape hshape hok.statOk,
    ⟨rfl, sameSubscribers_modify _ _, Cells.size_modify _ _ _, rfl⟩, rfl, rfl, rfl, rfl⟩

/-! ### `ps_call` and `ps_wait_one` -/

/-- The steps of a `ps_call` that returns. -/
structure Called (s : Bus Q) (msg : MsgId) (timeout : Int64) (ret : Option MsgId) (s' : Bus Q)
    (s₁ s₂ s₃ s₄ : Bus Q) (su : SubId) (n : ℕ) : Prop where
  counter : ∃ ms, psMsgSetRtopic s.messages msg (some (callTopic (s.uuidCtr + 1))) = some ms ∧
    s₁ = { s with uuidCtr := s.uuidCtr + 1, messages := ms }
  new : psNewSubscriber s₁ 1 (some [callTopic (s.uuidCtr + 1)]) = some (su, s₂)
  publish : psPublish s₂ (some msg) = some (n, s₃)
  get : (n = 0 ∧ ret = none ∧ s₄ = s₃) ∨ (n ≠ 0 ∧ psGet s₃ su timeout = some (ret, s₄))
  free : psFreeSubscriber s₄ su = some s'

section Call
variable {s s' : Bus Q} {msg : MsgId} {timeout : Int64} {ret : Option MsgId}

theorem psCall_called (h : psCall s msg timeout = some (ret, s')) :
    ∃ s₁ s₂ s₃ s₄ su n, Called s msg timeout ret s' s₁ s₂ s₃ s₄ su n := by
  simp only [psCall, Option.bind_eq_bind, Option.bind_eq_some_iff] at h
  obtain ⟨ms, hms, ⟨su, s₂⟩, hnew, ⟨n, s₃⟩, hpub, h⟩ := h
  split at h
  case isTrue hn =>
    rw [Option.bind_some] at h
    obtain ⟨s₅, hfree, heq⟩ := Option.bind_eq_some_iff.mp h
    cases heq
    exact ⟨_, s₂, s₃, s₃, su, n, ⟨ms, hms, rfl⟩, hnew, hpub, .inl ⟨hn, rfl, rfl⟩, hfree⟩
  case isFalse hn =>
    obtain ⟨⟨ret', s₄⟩, hget, h⟩ := Option.bind_eq_some_iff.mp h
    obtain ⟨s₅, hfree, heq⟩ := Option.bind_eq_some_iff.mp h
    cases heq
    exact ⟨_, s₂, s₃, s₄, su, n, ⟨ms, hms, rfl⟩, hnew, hpub, .inr ⟨hn, hget⟩, hfree⟩

theorem psMsgSetRtopic_eq_some {ms ms' : Messages} {rtopic : Option Str}
    (h : psMsgSetRtopic ms msg rtopic = some ms') : ∃ m, ms.cells.get msg = some m ∧
      ms' = { ms with cells := ms.cells.modify msg fun _ => { m with rtopic := rtopic } } := by
  simp only [psMsgSetRtopic, Option.bind_eq_bind, Option.bind_eq_some_iff, Option.some.injEq] at h
  obtain ⟨m, hm, rfl⟩ := h
  exact ⟨m, hm, rfl⟩

/-- A change of a message's other fields keeps the invariant and the account. -/
theorem modifyMsg_ok {i : MsgId} {m' : PsMsg} (hok : s.Ok) (u : UInt32) :
    Bus.Ok { s with
      uuidCtr := u
      messages := { s.messages with cells := s.messages.cells.modify i fun _ => m' } } := by
  refine ⟨hok.names, hok.alive, hok.links, ?_⟩
  have := hok.statOk
  simpa [Messages.StatOk] using this

theorem modifyMsg_refOk {i : MsgId} {m m' : PsMsg} {held : MsgId → ℕ} (u : UInt32)
    (hm : s.messages.cells.get i = some m) (href : m'.ref = m.ref) (hr : s.RefOk held) :
    Bus.RefOk { s with
      uuidCtr := u
      messages := { s.messages with cells := s.messages.cells.modify i fun _ => m' } } held :=
  refOk_modify hm href hr

namespace Called
variable {s₁ s₂ s₃ s₄ : Bus Q} {su : SubId} {n : ℕ} {held : MsgId → ℕ}

/-- The invariant holds between the steps of a call. -/
theorem oks (h : Called s msg timeout ret s' s₁ s₂ s₃ s₄ su n) (hok : s.Ok) :
    s₁.Ok ∧ s₂.Ok ∧ s₃.Ok ∧ s₄.Ok ∧ s'.Ok := by
  obtain ⟨ms, hms, hs₁⟩ := h.counter
  obtain ⟨m, hm, rfl⟩ := psMsgSetRtopic_eq_some hms
  have hok₁ : s₁.Ok := hs₁ ▸ modifyMsg_ok hok _
  have hnew := psNewSubscriber_quiet hok₁ h.new
  obtain ⟨m₂, topic, as, t₀, t₁, hpub⟩ :=
    psPublish_published hnew.ok.names hnew.ok.alive h.publish
  have hok₃ := hpub.ok hnew.ok
  have hok₄ : s₄.Ok := by
    rcases h.get with ⟨-, -, rfl⟩ | ⟨-, hget⟩
    · exact hok₃
    · exact (psGet_ok hok₃ hget).1
  exact ⟨hok₁, hnew.ok, hok₃, hok₄, (psFreeSubscriber_quiet hok₄ h.free).ok⟩

theorem subStatOk (h : Called s msg timeout ret s' s₁ s₂ s₃ s₄ su n) (hok : s.Ok)
    (hs : s.SubStatOk) : s'.SubStatOk := by
  obtain ⟨hok₁, hok₂, hok₃, hok₄, -⟩ := h.oks hok
  obtain ⟨ms, -, hs₁⟩ := h.counter
  have hstat₁ : s₁.SubStatOk := hs₁ ▸ hs
  obtain ⟨m, topic, as, t₀, t₁, hpub⟩ := psPublish_published hok₂.names hok₂.alive h.publish
  have hstat₃ := hpub.sameSubscribers.subStatOk (psNewSubscriber_subStatOk hok₁ hstat₁ h.new)
  have hstat₄ : s₄.SubStatOk := by
    rcases h.get with ⟨-, -, rfl⟩ | ⟨-, hget⟩
    · exact hstat₃
    · exact (psGet_ok hok₃ hget).2.1.subStatOk hstat₃
  exact psFreeSubscriber_subStatOk hok₄ hstat₄ h.free

/-- The caller's reference to the request is used up, and the reply's is its own. -/
theorem refOk (h : Called s msg timeout ret s' s₁ s₂ s₃ s₄ su n) (hok : s.Ok)
    (hr : s.RefOk (held + ownRef (some msg))) : s'.RefOk (held + ownRef ret) := by
  obtain ⟨hok₁, hok₂, hok₃, hok₄, -⟩ := h.oks hok
  obtain ⟨ms, hms, hs₁⟩ := h.counter
  obtain ⟨m, hm, rfl⟩ := psMsgSetRtopic_eq_some hms
  have hr₁ : s₁.RefOk (held + ownRef (some msg)) := by
    rw [hs₁]
    exact modifyMsg_refOk _ hm rfl hr
  obtain ⟨m₂, topic, as, t₀, t₁, hpub⟩ := psPublish_published hok₂.names hok₂.alive h.publish
  have hr₃ := hpub.refOk hok₂ ((psNewSubscriber_quiet hok₁ h.new).refOk _ hr₁)
  apply (psFreeSubscriber_quiet hok₄ h.free).refOk
  rcases h.get with ⟨-, rfl, rfl⟩ | ⟨-, hget⟩
  · simpa using hr₃
  · exact psGet_refOk hget hr₃

theorem noWrap (h : Called s msg timeout ret s' s₁ s₂ s₃ s₄ su n) (hok : s.Ok)
    (hw : s'.messages.refWrap = false) : s.messages.refWrap = false := by
  obtain ⟨hok₁, hok₂, hok₃, hok₄, -⟩ := h.oks hok
  obtain ⟨m₂, topic, as, t₀, t₁, hpub⟩ := psPublish_published hok₂.names hok₂.alive h.publish
  have hw₄ := (psFreeSubscriber_quiet hok₄ h.free).content.wrap hw
  have hw₃ : s₃.messages.refWrap = false := by
    rcases h.get with ⟨-, -, rfl⟩ | ⟨-, hget⟩
    · exact hw₄
    · rw [(psGet_ok hok₃ hget).2.2.2.1] at hw₄
      exact hw₄
  have hw₁ := (psNewSubscriber_quiet hok₁ h.new).content.wrap (hpub.content.wrap hw₃)
  obtain ⟨ms, hms, rfl⟩ := h.counter
  obtain ⟨m, -, rfl⟩ := psMsgSetRtopic_eq_some hms
  exact hw₁

end Called

theorem psWaitOne_eq_some {topic : Str} (h : psWaitOne s topic timeout = some (ret, s')) :
    ∃ su s₁ s₂, psNewSubscriber s 1 (some [topic]) = some (su, s₁) ∧
      psGet s₁ su timeout = some (ret, s₂) ∧ psFreeSubscriber s₂ su = some s' := by
  simp only [psWaitOne, Option.bind_eq_bind, Option.bind_eq_some_iff, Option.some.injEq,
    Prod.mk.injEq] at h
  obtain ⟨⟨su, s₁⟩, hnew, ⟨ret', s₂⟩, hget, s₃, hfree, rfl, rfl⟩ := h
  exact ⟨su, s₁, s₂, hnew, hget, hfree⟩

end Call

end PubSub
