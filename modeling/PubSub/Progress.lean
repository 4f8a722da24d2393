import PubSub.Memory.Effects
import PubSub.OnEmpty
import PubSub.PriorityRange
import PubSub.StartOrder
import PubSub.SubsCount
import PubSub.SubscriptionLaws

/-! Which calls return. A call that does not is undefined behaviour or a wait without
end, so this is what the callers of `pubsub.h` owe: objects that exist, values of the
type that the flags say, the topic of a message that is published, and a wait that ends. -/

namespace PubSub

open Lib Bus

variable {Q : Type → Type} [PsQueue Q] [LawfulPsQueue Q]

/-! ### What the callers owe -/

/-- The argument of a value function is of the type that the flags say, if they say one. -/
def ArgsFit (flags : UInt32) (args : PsValue) : Prop := takesArgument flags → hasType flags args.typ

/-- The objects of the call exist, the client has the reference that it gives up, and the
topic of a message to publish is not NULL. `ps_unsubscribe` compares its subscriber only. -/
def Op.Legal (c : Client Q) : Op → Prop
  | .newMsg topic flags args => topic.isSome → ArgsFit flags args
  | .dupMsg msg | .msgSetTopic msg _ | .msgSetRtopic msg _ => (c.bus.messages.cells.get msg).isSome
  | .refMsg msg => ∀ i ∈ msg, (c.bus.messages.cells.get i).isSome
  | .unrefMsg msg => ∀ i ∈ msg, 0 < c.held i
  | .msgSetValue msg flags args => (c.bus.messages.cells.get msg).isSome ∧ ArgsFit flags args
  | .freeSubscriber su | .setNewMsgCb su _ | .setNonEmptyCb su _ | .get su _ | .flush su
  | .waiting su | .overflow su | .numSubs su | .subscribe su _ | .subscribeFlags su _ _
  | .unsubscribeAll su => (c.bus.subscribers.get su).isSome
  | .subscribeMany su subs => subs.getD [] ≠ [] → (c.bus.subscribers.get su).isSome
  | .publish msg =>
    ∀ i ∈ msg, 0 < c.held i ∧ ∃ m, c.bus.messages.cells.get i = some m ∧ m.topic.isSome
  | .call msg _ => 0 < c.held msg ∧ ∃ m, c.bus.messages.cells.get msg = some m ∧ m.topic.isSome
  | .newSubscriber _ _ | .unsubscribe _ _ | .unsubscribeMany _ _ | .cleanSticky _ | .subsCount _
  | .waitOne _ _ => True

/-- The wait of the call ends without another thread: it has a deadline, or a message is
there. -/
def Op.Ends (s : Bus Q) : Op → Prop
  | .get su timeout => ¬ timeout.toInt32 < 0 ∨ ∃ n, psWaiting s su = some (n + 1)
  | .call _ timeout => ¬ timeout.toInt32 < 0
  | .waitOne topic timeout =>
    ¬ timeout.toInt32 < 0 ∨ 0 < replayCount s.topicMap [(topic, none)]
  | _ => True

/-- The most references that the call takes to one message, before it gives any back. -/
def Op.references (s : Bus Q) (op : Op) : ℕ :=
  replayCount s.topicMap (requested s op).2 +
    match op with
    | .refMsg _ => 1
    | .publish (some msg) => offered msg
    | .call msg _ => offered msg + 1
    | _ => 0
where
  offered (msg : MsgId) : ℕ := ((s.messages.cells.get msg).bind fun m => m.topic.map fun t =>
    (route s.topicMap m (cutFlags t)).length + 1).getD 0

/-! ### The calls -/

theorem psMsgSetVvalue_isSome_iff (msg : PsMsg) {flags : UInt32} {args : PsValue} :
    (psMsgSetVvalue msg flags args).isSome ↔ ArgsFit flags args := by
  have hset : psMsgSetVvalue msg flags args =
      if takesArgument flags then
        if hasType flags args.typ then
          some { msg with flags := valueFlags msg.flags flags, value := args }
        else none
      else some { msg with flags := valueFlags msg.flags flags, value := .nil } := by
    rw [← takesArgument_valueFlags msg.flags, ← hasType_valueFlags msg.flags]
    rfl
  rw [hset, ArgsFit]
  split
  case isTrue htakes =>
    split
    case isTrue htype => simp [htype]
    case isFalse htype => simp [htakes, htype]
  case isFalse htakes => simp [htakes]

section Calls
variable {s s' : Bus Q} {su : SubId} {held : MsgId → ℕ} {k : ℕ} {timeout : Int64}

theorem psGet_isSome_iff : (psGet s su timeout).isSome ↔
    (s.subscribers.get su).isSome ∧ Op.Ends s (.get su timeout) := by
  cases hS : s.subscribers.get su with
  | none => simp [psGet, hS]
  | some S =>
    have hget : (psGet s su timeout).isSome = (S.q.pull timeout).isSome := by
      rw [psGet, hS, Option.bind_eq_bind, Option.bind_some]
      cases S.q.pull timeout <;> rfl
    have hwaiting : (∃ n, psWaiting s su = some (n + 1)) ↔ 0 < S.q.waiting := by
      rw [psWaiting, hS, Option.bind_eq_bind, Option.bind_some]
      constructor
      · rintro ⟨n, h⟩
        have := Option.some.inj h
        omega
      · exact fun h => ⟨S.q.waiting - 1, congrArg some (by omega)⟩
    rw [hget, IdleQueue.pull_isSome_iff, Op.Ends, hwaiting]
    simp

theorem psFreeSubscriber_exists (hok : s.Ok) (hsu : (s.subscribers.get su).isSome)
    (hr : s.RefOk held) (hw : s.messages.refWrap = false) :
    ∃ s', psFreeSubscriber s su = some s' ∧ s'.messages.refWrap = false := by
  obtain ⟨S, hS⟩ := Option.isSome_iff_exists.mp hsu
  obtain ⟨s₁, hall⟩ := psUnsubscribeAll_exists hok hS
  have hquiet := (psUnsubscribeAll_quiet hok hall).1
  obtain ⟨S', T, -, -, hs₁, -⟩ := psUnsubscribeAll_eq_some hok hall
  have hS₁ : s₁.subscribers.get su = some { S with subs := [] } := by
    rw [hs₁, Cells.get_modify_self, hS]
    rfl
  have hw₁ : s₁.messages.refWrap = false := by
    rw [hs₁]
    exact hw
  obtain ⟨n, s₂, hflush, hw₂⟩ := psFlush_exists hS₁ (hquiet.refOk held hr) hw₁
  obtain ⟨S₁, q, ms, hget, hf⟩ := psFlush_flushed hflush
  have hS₂ : s₂.subscribers.get su = some { S₁ with q := q } := by
    rw [hf.state, Cells.get_modify_self, hget]
    rfl
  refine ⟨{ s₂ with
    subscribers := s₂.subscribers.free su
    statLiveSubscribers := s₂.statLiveSubscribers - 1 }, ?_, hw₂⟩
  simp only [psFreeSubscriber, hall, hflush, hS₂, Option.bind_eq_bind, Option.bind_some]
  rw [IdleQueue.free_empty hf.empty]
  rfl

/-- A publish by a client with a reference returns. -/
theorem psPublish_spare {msg : MsgId} {m : PsMsg} {t : Str} (hok : s.Ok) (hp : s.PrioritiesOk)
    (hm : s.messages.cells.get msg = some m) (ht : m.topic = some t) (hmsg : 0 < held msg)
    (h : s.Spare held ((route s.topicMap m (cutFlags t)).length + 1)) :
    ∃ n s', psPublish s (some msg) = some (n, s') ∧ s'.messages.refWrap = false ∧ s'.Ok ∧
      s'.RefOk (fun i => held i - ownRef (some msg) i) ∧ SameSubscribers s s' := by
  have hoffer : Offerable s (route s.topicMap m (cutFlags t)) := by
    apply hok.offerable
    intro e he
    obtain ⟨name, -, hentry⟩ := List.mem_flatMap.mp he
    obtain ⟨sl, hsl, rfl⟩ := List.mem_map.mp hentry
    exact hp name sl hsl
  have hready := h.ready hmsg
  obtain ⟨n, s', hpub⟩ := psPublish_exists hok.names hok.alive hm ht hready hoffer
  obtain ⟨as, s₀, s₁, hpd⟩ := psPublish_published_of hok hm ht hpub
  obtain ⟨-, hw⟩ := hpd.room (k := 0) hok (by rwa [Nat.zero_add])
  have hrefs := h.refOk
  rw [held_split hmsg] at hrefs
  exact ⟨n, s', hpub, hw, hpd.ok hok, hpd.refOk hok hrefs, hpd.sameSubscribers⟩

/-- What waits for a new subscriber: nothing, or what its subscription replays. -/
theorem psNewSubscriber_waiting {t : Str} (hok : s.Ok)
    (h : psNewSubscriber s 1 (some [t]) = some (su, s')) :
    ∃ n, psWaiting s' su = some n ∧ (0 < n ↔ 0 < replayCount s.topicMap [(t, none)]) := by
  obtain ⟨ps, -, hown, hlen, -, hanswered, S, hS, hwaiting⟩ := psNewSubscriber_made hok h
  have hmade : made (lists s su) [(t, none)] = [(t, none)] := by
    rw [made, if_neg, made]
    rw [lists_iff]
    intro hin
    obtain ⟨sl, hsl, heq⟩ := List.mem_map.mp hin
    have hlive := live_of_entry hok hsl
    rw [heq, (psNewSubscriber_eq_some h).1, Cells.get_next] at hlive
    cases hlive
  rw [Option.getD_some, List.map_singleton, hmade] at hlen
  refine ⟨S.q.waiting, by rw [psWaiting, hS]; rfl, ?_⟩
  rw [← hlen, hwaiting]
  constructor
  · exact fun harrives => Nat.lt_of_lt_of_le harrives List.countP_le_length
  · -- the first one finds the queue empty
    intro hpos
    obtain ⟨p, ps, rfl⟩ := List.exists_cons_of_length_pos hpos
    have hp := hown p List.mem_cons_self
    have hret : p.ret = .ok := (hanswered.1 hp).mpr Nat.zero_lt_one
    rw [arrivals_cons su p ps]
    have hone : arrivals su [p] = 1 := by simp [arrivals, hp, hret]
    omega

/-- A `ps_wait_one` whose wait ends returns. -/
theorem psWaitOne_of_get {s₁ s₂ : Bus Q} {t : Str} {ret : Option MsgId} (hok₁ : s₁.Ok)
    (h₁ : s₁.Spare held 0) (hnew : psNewSubscriber s 1 (some [t]) = some (su, s₁))
    (hget : psGet s₁ su timeout = some (ret, s₂)) :
    ∃ s', psWaitOne s t timeout = some (ret, s') ∧ s'.messages.refWrap = false := by
  obtain ⟨hok₂, hsame, -, hms, -⟩ := psGet_ok hok₁ hget
  have hrefs₂ : s₂.RefOk (held + ownRef ret) := psGet_refOk hget h₁.refOk
  have hlive : (s₁.subscribers.get su).isSome := (psGet_isSome_iff.mp (by rw [hget]; rfl)).1
  obtain ⟨s', hfree, hw⟩ := psFreeSubscriber_exists hok₂ (by rw [hsame.live]; exact hlive)
    hrefs₂ (hms ▸ h₁.noWrap)
  refine ⟨s', ?_, hw⟩
  simp only [psWaitOne, hnew, hget, hfree, Option.bind_eq_bind, Option.bind_some]

/-- A `ps_wait_one` returns if and only if its wait ends. -/
theorem psWaitOne_spare {t : Str} (hok : s.Ok)
    (h : s.Spare held (replayCount s.topicMap [(t, none)])) :
    ((psWaitOne s t timeout).isSome → Op.Ends s (.waitOne t timeout)) ∧
    (Op.Ends s (.waitOne t timeout) →
      ∃ ret s', psWaitOne s t timeout = some (ret, s') ∧ s'.messages.refWrap = false) := by
  rw [← Nat.zero_add (replayCount _ _)] at h
  obtain ⟨su, s₁, hnew, h₁⟩ := psNewSubscriber_spare 1 (some [t]) hok h
  have hok₁ := (psNewSubscriber_quiet hok hnew).ok
  obtain ⟨n, hwaiting, hpos⟩ := psNewSubscriber_waiting hok hnew
  have hends : Op.Ends s (.waitOne t timeout) ↔ Op.Ends s₁ (.get su timeout) := by
    simp only [Op.Ends, hwaiting, Option.some.injEq, ← hpos]
    exact or_congr_right ⟨fun hn => ⟨n - 1, by omega⟩, fun ⟨k, hk⟩ => by omega⟩
  have hlive : (s₁.subscribers.get su).isSome := by
    rw [psWaiting] at hwaiting
    obtain ⟨S, hS, -⟩ := Option.bind_eq_some_iff.mp hwaiting
    rw [hS]
    rfl
  rw [hends]
  constructor
  · intro hret
    obtain ⟨⟨ret, s'⟩, hret⟩ := Option.isSome_iff_exists.mp hret
    obtain ⟨su', s₁', s₂, hnew', hget, -⟩ := psWaitOne_eq_some hret
    rw [hnew] at hnew'
    cases hnew'
    exact (psGet_isSome_iff.mp (by rw [hget]; rfl)).2
  · intro hends
    obtain ⟨⟨ret, s₂⟩, hget⟩ := Option.isSome_iff_exists.mp (psGet_isSome_iff.mpr ⟨hlive, hends⟩)
    exact ⟨ret, psWaitOne_of_get hok₁ h₁ hnew hget⟩

/-! ### `ps_call` -/

/-- One more entry at a topic is one more subscription on a route, at most. -/
theorem length_subscriptionsAt_update {a b : Cells TopicMap} {name : Str} {sl : SubscriberList}
    {names : List Str} (hd : names.Nodup)
    (h : entriesAt b = Function.update (entriesAt a) name (entriesAt a name ++ [sl])) :
    (subscriptionsAt b names).length ≤
      (subscriptionsAt a names).length + if name ∈ names then 1 else 0 := by
  induction names with
  | nil => simp [subscriptionsAt]
  | cons x names ih =>
    obtain ⟨hx, hd⟩ := List.nodup_cons.mp hd
    have htail := ih hd
    simp only [subscriptionsAt, List.flatMap_cons, List.length_append, List.length_map] at htail ⊢
    by_cases hname : x = name
    · subst hname
      rw [if_neg hx] at htail
      rw [h, Function.update_self, ← h, List.length_append, List.length_singleton,
        if_pos List.mem_cons_self]
      omega
    · rw [h, Function.update_of_ne hname, ← h]
      have hmem : name ∈ x :: names ↔ name ∈ names := by simp [Ne.symm hname]
      simp only [hmem]
      omega

theorem psNewSubscriber_route {n : ℕ} {t : Str} (hok : s.Ok)
    (h : psNewSubscriber s n (some [t]) = some (su, s')) (m : PsMsg) (topic : Str) :
    (route s'.topicMap m topic).length ≤ (route s.topicMap m topic).length + 1 := by
  obtain ⟨-, k, s₁, hmany, rfl⟩ := psNewSubscriber_eq_some h
  have hadd := addSubscriber_quiet hok n
  simp only [psSubscribeMany, countOks, Option.bind_eq_bind, Option.bind_eq_some_iff,
    Option.some.injEq, Prod.mk.injEq] at hmany
  obtain ⟨⟨r, s₂⟩, hsub, ⟨j, s₃⟩, ⟨rfl, rfl⟩, -, rfl⟩ := hmany
  rcases psSubscribeFlags_cases hadd.ok hsub with ⟨-, -, rfl⟩ | ⟨-, s₁', ps, hs⟩
  · exact Nat.le_add_right _ _
  · obtain ⟨tm, hedit⟩ := hs.edit
    have hd : (visited m topic).Nodup := visited_sorted.imp fun hlt heq => by
      subst heq
      exact Nat.lt_irrefl _ hlt
    have hle := length_subscriptionsAt_update hd hedit.entriesAt
    rw [← hs.pushes.sameShape.topicMap] at hle
    rw [route, route]
    have hone : (if cutFlags t ∈ visited m topic then 1 else 0) ≤ 1 := by split <;> omega
    exact hle.trans (Nat.add_le_add_left hone _)

theorem route_congr {topicMap : Cells TopicMap} {m m' : PsMsg} (h : m'.flags = m.flags) (topic : Str) :
    route topicMap m' topic = route topicMap m topic := by
  rw [route, route, visited, visited, PsMsg.nonrecursive, PsMsg.nonrecursive, h]

/-- A `ps_call` up to its wait: the message has its topic for the answer, the new subscriber
waits there, and the message is published. -/
structure CallSent (s : Bus Q) (msg : MsgId) (s₁ s₂ s₃ : Bus Q) (su : SubId) (n : ℕ) : Prop where
  counter : ∃ ms, psMsgSetRtopic s.messages msg (some (callTopic (s.uuidCtr + 1))) = some ms ∧
    s₁ = { s with uuidCtr := s.uuidCtr + 1, messages := ms }
  new : psNewSubscriber s₁ 1 (some [callTopic (s.uuidCtr + 1)]) = some (su, s₂)
  publish : psPublish s₂ (some msg) = some (n, s₃)
  ok : s₃.Ok
  live : (s₃.subscribers.get su).isSome
  refOk : ∃ held, s₃.RefOk held
  noWrap : s₃.messages.refWrap = false

/-- A `ps_call` that is sent returns if no one took the message or its wait ends. -/
theorem CallSent.returns {s₁ s₂ s₃ : Bus Q} {msg : MsgId} {n : ℕ}
    (h : CallSent s msg s₁ s₂ s₃ su n) (hget : n = 0 ∨ (psGet s₃ su timeout).isSome) :
    ∃ ret s', psCall s msg timeout = some (ret, s') ∧ s'.messages.refWrap = false := by
  obtain ⟨ms, hms, rfl⟩ := h.counter
  obtain ⟨held, hrefs⟩ := h.refOk
  simp only [psCall, hms, h.new, h.publish, Option.bind_eq_bind, Option.bind_some]
  by_cases hn : n = 0
  · obtain ⟨s', hfree, hw⟩ := psFreeSubscriber_exists h.ok h.live hrefs h.noWrap
    refine ⟨none, s', ?_, hw⟩
    rw [if_pos hn, hfree]
    rfl
  · obtain ⟨⟨ret, s₄⟩, hget⟩ := Option.isSome_iff_exists.mp (hget.resolve_left hn)
    obtain ⟨hok₄, hsame₄, -, hms₄, -⟩ := psGet_ok h.ok hget
    obtain ⟨s', hfree, hw⟩ := psFreeSubscriber_exists hok₄ (by rw [hsame₄.live]; exact h.live)
      (psGet_refOk hget hrefs) (hms₄ ▸ h.noWrap)
    refine ⟨ret, s', ?_, hw⟩
    rw [if_neg hn, hget, Option.bind_some, hfree]
    rfl

/-- A `ps_call` by a client with a reference comes to its wait. -/
theorem psCall_sent {msg : MsgId} {m : PsMsg} {t : Str} (hok : s.Ok) (hp : s.PrioritiesOk)
    (hm : s.messages.cells.get msg = some m) (ht : m.topic = some t) (hmsg : 0 < held msg)
    (h : s.Spare held ((route s.topicMap m (cutFlags t)).length + 2 +
      replayCount s.topicMap [(callTopic (s.uuidCtr + 1), none)])) :
    ∃ s₁ s₂ s₃ su n, CallSent s msg s₁ s₂ s₃ su n := by
  let rtopic := callTopic (s.uuidCtr + 1)
  let s₁ : Bus Q := { s with
    uuidCtr := s.uuidCtr + 1
    messages := { s.messages with
      cells := s.messages.cells.modify msg fun _ => { m with rtopic := some rtopic } } }
  have hset : psMsgSetRtopic s.messages msg (some rtopic) = some s₁.messages := by
    rw [psMsgSetRtopic, hm]
    rfl
  have hok₁ : s₁.Ok := modifyMsg_ok hok _
  have h₁ : s₁.Spare held _ := ⟨modifyMsg_refOk _ hm rfl h.refOk, h.noWrap, h.room⟩
  obtain ⟨su, s₂, hnew, h₂⟩ := psNewSubscriber_spare 1 (some [rtopic]) hok₁ h₁
  have hquiet := psNewSubscriber_quiet hok₁ hnew
  have hp₂ : s₂.PrioritiesOk := by
    intro name sl hsl
    rcases psNewSubscriber_entries hok₁ hnew name sl hsl with hold | ⟨sub, hsub, -, rfl⟩
    · exact hp name sl hold
    · rw [List.mem_singleton.mp hsub]
      simpa [requestedEntry] using subFlags_none_priority rtopic
  -- the message is the one that the client gave, with the topic for the answer
  obtain ⟨m₂, hm₂⟩ := (h₂.ready hmsg).live
  obtain ⟨m₁, hm₁, hsame⟩ := hquiet.content.content msg m₂ hm₂
  have hm₁ : m₁ = { m with rtopic := some rtopic } := by
    have hself := Cells.get_modify_self s.messages.cells msg fun _ => { m with rtopic := some rtopic }
    rw [hm] at hself
    exact Option.some.inj (hm₁.symm.trans hself)
  have ht₂ : m₂.topic = some t := by rw [hsame, hm₁]; exact ht
  have hroute : (route s₂.topicMap m₂ (cutFlags t)).length ≤
      (route s.topicMap m (cutFlags t)).length + 1 := by
    rw [route_congr (m := m) (by rw [hsame, hm₁])]
    exact psNewSubscriber_route hok₁ hnew m (cutFlags t)
  have hlive₂ : (s₂.subscribers.get su).isSome := by
    obtain ⟨n, hwaiting, -⟩ := psNewSubscriber_waiting hok₁ hnew
    obtain ⟨S, hS, -⟩ := Option.bind_eq_some_iff.mp hwaiting
    rw [hS]
    rfl
  obtain ⟨n, s₃, hpub, hw₃, hok₃, hr₃, hsame₃⟩ :=
    psPublish_spare hquiet.ok hp₂ hm₂ ht₂ hmsg (h₂.mono (Nat.add_le_add_right hroute 1))
  exact ⟨s₁, s₂, s₃, su, n, ⟨_, hset, rfl⟩, hnew, hpub, hok₃, by rw [hsame₃.live]; exact hlive₂,
    ⟨_, hr₃⟩, hw₃⟩

/-- A `ps_call` with a deadline returns. -/
theorem psCall_spare {msg : MsgId} {m : PsMsg} {t : Str} (hok : s.Ok) (hp : s.PrioritiesOk)
    (hm : s.messages.cells.get msg = some m) (ht : m.topic = some t) (hmsg : 0 < held msg)
    (hend : ¬ timeout.toInt32 < 0)
    (h : s.Spare held ((route s.topicMap m (cutFlags t)).length + 2 +
      replayCount s.topicMap [(callTopic (s.uuidCtr + 1), none)])) :
    ∃ ret s', psCall s msg timeout = some (ret, s') ∧ s'.messages.refWrap = false := by
  obtain ⟨s₁, s₂, s₃, su, n, hsent⟩ := psCall_sent hok hp hm ht hmsg h
  exact hsent.returns (.inr (psGet_isSome_iff.mpr ⟨hsent.live, .inl hend⟩))

theorem psNewMsg_isSome_iff (ms : Messages) {topic : Option Str} {flags : UInt32} {args : PsValue} :
    (psNewMsg ms topic flags args).isSome ↔ (topic.isSome → ArgsFit flags args) := by
  cases topic with
  | none => simp [psNewMsg]
  | some t =>
    simp only [psNewMsg, Option.bind_eq_bind, Option.isSome_some, true_imp_iff]
    rw [Option.isSome_bind]
    simp [psMsgSetVvalue_isSome_iff]

theorem psSubscribeFlags_isSome {t : Str} {pflags : Option PsSubFlags} {r : ℤ} (hok : s.Ok)
    (h : psSubscribeFlags s su t pflags = some (r, s')) : (s.subscribers.get su).isSome := by
  rcases psSubscribeFlags_cases hok h with ⟨-, hin, -⟩ | ⟨-, s₁, ps, hs⟩
  · obtain ⟨sl, hsl, rfl⟩ := List.mem_map.mp hin
    exact live_of_entry hok hsl
  · obtain ⟨S, tm, hS, -⟩ := hs.subscribers
    rw [hS]
    rfl

theorem psSubscribeMany_live {subs : Option (List Str)} {n : ℕ} (hok : s.Ok)
    (h : psSubscribeMany s su subs = some (n, s')) (hne : subs.getD [] ≠ []) :
    (s.subscribers.get su).isSome := by
  obtain ⟨topics, rfl⟩ : ∃ topics, subs = some topics := by
    cases subs with
    | none => exact absurd rfl hne
    | some topics => exact ⟨topics, rfl⟩
  obtain ⟨t, topics, rfl⟩ := List.exists_cons_of_ne_nil hne
  obtain ⟨⟨r, s₁⟩, hsub, -⟩ := Option.bind_eq_some_iff.mp h
  exact psSubscribeFlags_isSome hok hsub

/-- What a `ps_unsubscribe` leaves alone. -/
theorem psUnsubscribe_messages {t : Str} {r : ℤ} (hok : s.Ok)
    (h : psUnsubscribe s su t = some (r, s')) : s'.messages = s.messages := by
  rcases psUnsubscribe_cases hok h with ⟨-, -, rfl⟩ | ⟨-, -, S, tm, -, -, -, -, hs, -⟩
  · rfl
  · rw [hs]

theorem psUnsubscribeMany_messages {subs : Option (List Str)} {n : ℕ} (hok : s.Ok)
    (h : psUnsubscribeMany s su subs = some (n, s')) : s'.messages = s.messages :=
  psUnsubscribeMany_rule (R := fun s s' => s'.messages = s.messages) (fun _ _ => rfl)
    (fun _ _ _ h₁ h₂ => h₂.trans h₁) (fun _ _ _ _ hok h => psUnsubscribe_messages hok h) hok h

theorem psSubsCount_exists (s : Bus Q) (topic : Option Str) : ∃ n, psSubsCount s topic = some n := by
  cases topic with
  | none => exact ⟨0, rfl⟩
  | some t =>
    by_cases ht : t = []
    · exact ⟨0, by rw [psSubsCount, if_pos (List.length_eq_zero_iff.mpr ht)]⟩
    · let m : PsMsg :=
        { ref := 1, topic := none, rtopic := none, flags := 0, priority := 0, value := .nil }
      have hm : m.nonrecursive = false := by decide
      obtain ⟨n, hn, -⟩ := psSubsCount_eq hm s ht
      exact ⟨n, hn⟩

theorem psPublish_topic {msg : MsgId} {n : ℕ} (h : psPublish s (some msg) = some (n, s')) :
    ∃ m, s.messages.cells.get msg = some m ∧ m.topic.isSome := by
  obtain ⟨m, hm, h⟩ := Option.bind_eq_some_iff.mp h
  obtain ⟨t, ht, -⟩ := Option.bind_eq_some_iff.mp h
  exact ⟨m, hm, by rw [ht]; rfl⟩

theorem psCall_topic {msg : MsgId} {ret : Option MsgId} (hok : s.Ok)
    (h : psCall s msg timeout = some (ret, s')) :
    ∃ m, s.messages.cells.get msg = some m ∧ m.topic.isSome := by
  obtain ⟨s₁, s₂, s₃, s₄, su, n, hc⟩ := psCall_called h
  obtain ⟨ms, hms, hs₁⟩ := hc.counter
  obtain ⟨m, hm, rfl⟩ := psMsgSetRtopic_eq_some hms
  obtain ⟨m₂, hm₂, ht₂⟩ := psPublish_topic hc.publish
  obtain ⟨m₁, hm₁, hsame⟩ :=
    (psNewSubscriber_quiet (hc.oks hok).1 hc.new).content.content msg m₂ hm₂
  rw [hs₁] at hm₁
  have hself := Cells.get_modify_self s.messages.cells msg fun _ =>
    { m with rtopic := some (callTopic (s.uuidCtr + 1)) }
  rw [hm] at hself
  rw [Option.some.inj (hm₁.symm.trans hself)] at hsame
  refine ⟨m, hm, ?_⟩
  rw [hsame] at ht₂
  exact ht₂

end Calls

/-! ### One call -/

section Step
variable {c : Client Q} {op : Op}

/-- A call that returns is one that the client was entitled to. -/
theorem Op.Legal.of_step {r : Ret} {s' : Bus Q} (hok : c.bus.Ok)
    (hgives : ∀ i, ownRef op.gives i ≤ c.held i) (h : PubSub.step c.bus op = some (r, s')) :
    op.Legal c := by
  have hheld : ∀ i, op.gives = some i → 0 < c.held i := by
    intro i hi
    have hone := hgives i
    rw [hi, ownRef, if_pos rfl] at hone
    omega
  cases op
  all_goals
    obtain ⟨x, hx, heq⟩ := Option.map_eq_some_iff.mp h
    cases heq
  case newMsg topic flags args => exact (psNewMsg_isSome_iff _).mp (by rw [hx]; rfl)
  case dupMsg msg =>
    obtain ⟨m, hm, -⟩ := psDupMsg_eq_some hx
    rw [Op.Legal, hm]
    rfl
  case refMsg msg =>
    rintro i rfl
    obtain ⟨m, hm, -⟩ := psRefMsg_eq_some.mp hx
    rw [hm]
    rfl
  case unrefMsg msg =>
    rintro i rfl
    exact hheld i rfl
  case msgSetTopic msg topic =>
    obtain ⟨m, hm, -⟩ := psMsgSetTopic_eq_some hx
    rw [Op.Legal, hm]
    rfl
  case msgSetRtopic msg rtopic =>
    obtain ⟨m, hm, -⟩ := psMsgSetRtopic_eq_some hx
    rw [Op.Legal, hm]
    rfl
  case msgSetValue msg flags args =>
    obtain ⟨m, m', hm, hm', -⟩ := psMsgSetValue_eq_some hx
    have hset : (psMsgSetVvalue m flags args).isSome := by rw [hm']; rfl
    exact ⟨by rw [hm]; rfl, (psMsgSetVvalue_isSome_iff m).mp hset⟩
  case newSubscriber => trivial
  case freeSubscriber su =>
    obtain ⟨⟨n, s₁⟩, hall, -⟩ := Option.bind_eq_some_iff.mp hx
    obtain ⟨S, T, hS, -⟩ := psUnsubscribeAll_eq_some hok hall
    rw [Op.Legal, hS]
    rfl
  case setNewMsgCb su cb =>
    obtain ⟨S, -, hS, -⟩ := psSetNewMsgCb_eq_some hx
    rw [Op.Legal, hS]
    rfl
  case setNonEmptyCb su cb =>
    obtain ⟨S, -, hS, -⟩ := psSetNonEmptyCb_eq_some hx
    rw [Op.Legal, hS]
    rfl
  case get su timeout => exact (psGet_isSome_iff.mp (by rw [hx]; rfl)).1
  case flush su =>
    obtain ⟨S, q, ms, hS, -⟩ := psFlush_flushed hx
    rw [Op.Legal, hS]
    rfl
  case waiting su =>
    obtain ⟨n, hn, -⟩ := Option.bind_eq_some_iff.mp hx
    obtain ⟨S, hS, -⟩ := Option.bind_eq_some_iff.mp hn
    rw [Op.Legal, hS]
    rfl
  case overflow su =>
    obtain ⟨S, hS, -⟩ := psOverflow_eq_some hx
    rw [Op.Legal, hS]
    rfl
  case numSubs su =>
    obtain ⟨n, hn, -⟩ := Option.bind_eq_some_iff.mp hx
    obtain ⟨S, hS, -⟩ := Option.bind_eq_some_iff.mp hn
    rw [Op.Legal, hS]
    rfl
  case subscribe su topic => exact psSubscribeFlags_isSome hok hx
  case subscribeFlags su topic flags => exact psSubscribeFlags_isSome hok hx
  case subscribeMany su subs => exact psSubscribeMany_live hok hx
  case unsubscribe => trivial
  case unsubscribeMany => trivial
  case unsubscribeAll su =>
    obtain ⟨S, T, hS, -⟩ := psUnsubscribeAll_eq_some hok hx
    rw [Op.Legal, hS]
    rfl
  case publish msg =>
    rintro i rfl
    exact ⟨hheld i rfl, psPublish_topic hx⟩
  case cleanSticky => trivial
  case subsCount => trivial
  case call msg timeout => exact ⟨hheld msg rfl, psCall_topic hok hx⟩
  case waitOne => trivial

theorem Op.references_call {s : Bus Q} {msg : MsgId} {m : PsMsg} {t : Str} {timeout : Int64}
    (hm : s.messages.cells.get msg = some m) (ht : m.topic = some t) :
    Op.references s (.call msg timeout) = (route s.topicMap m (cutFlags t)).length + 2 +
      replayCount s.topicMap [(callTopic (s.uuidCtr + 1), none)] := by
  simp only [Op.references, Op.references.offered, requested, hm, ht, Option.bind_some,
    Option.map_some, Option.getD_some]
  omega

theorem exists_map {α : Type} {x : Option α} {a : α} {f : α → Ret × Bus Q} (hx : x = some a)
    (hw : (f a).2.messages.refWrap = false) :
    ∃ r s', x.map f = some (r, s') ∧ s'.messages.refWrap = false :=
  ⟨(f a).1, (f a).2, by rw [hx]; rfl, hw⟩

/-- A call that the client is entitled to returns, if its wait ends. -/
theorem Op.Legal.returns (hl : op.Legal c) (he : op.Ends c.bus) (hok : c.bus.Ok)
    (hp : c.bus.PrioritiesOk) (hprio : PriorityOk c.bus op)
    (h : c.bus.Spare c.held (op.references c.bus)) :
    ∃ r s', PubSub.step c.bus op = some (r, s') ∧ s'.messages.refWrap = false := by
  have hw := h.noWrap
  cases op
  case newMsg topic flags args =>
    obtain ⟨⟨m, ms⟩, hx⟩ := Option.isSome_iff_exists.mp
      ((psNewMsg_isSome_iff c.bus.messages).mpr hl)
    exact exists_map hx ((psNewMsg_wrap hx).trans hw)
  case dupMsg msg =>
    obtain ⟨m, hm⟩ := Option.isSome_iff_exists.mp hl
    exact exists_map (Option.bind_eq_some_iff.mpr ⟨m, hm, rfl⟩) hw
  case refMsg msg =>
    cases msg with
    | none => exact exists_map rfl hw
    | some i =>
      obtain ⟨ms, hx⟩ := psRefMsg_isSome (hl i rfl)
      have hroom : c.bus.messages.Room i (0 + 1) := h.messages_room i
      exact exists_map hx ((psRefMsg_room hx hroom).2.trans hw)
  case unrefMsg msg =>
    cases msg with
    | none => exact exists_map rfl hw
    | some i =>
      have hrefs := h.refOk
      rw [held_split (hl i rfl), Bus.RefOk, Bus.account, ← add_assoc] at hrefs
      obtain ⟨ms, hx⟩ := psUnrefMsg_isSome hrefs hw
      exact exists_map hx (psUnrefMsg_room hx hrefs hw (h.messages_room i)).2
  case msgSetTopic msg topic =>
    obtain ⟨m, hm⟩ := Option.isSome_iff_exists.mp hl
    exact exists_map (Option.bind_eq_some_iff.mpr ⟨m, hm, rfl⟩) hw
  case msgSetRtopic msg rtopic =>
    obtain ⟨m, hm⟩ := Option.isSome_iff_exists.mp hl
    exact exists_map (Option.bind_eq_some_iff.mpr ⟨m, hm, rfl⟩) hw
  case msgSetValue msg flags args =>
    obtain ⟨m, hm⟩ := Option.isSome_iff_exists.mp hl.1
    obtain ⟨m', hm'⟩ := Option.isSome_iff_exists.mp
      ((psMsgSetVvalue_isSome_iff m).mpr hl.2)
    exact exists_map
      (Option.bind_eq_some_iff.mpr ⟨m, hm, Option.bind_eq_some_iff.mpr ⟨m', hm', rfl⟩⟩) hw
  case newSubscriber n subs =>
    obtain ⟨su, s', hx, hs'⟩ := psNewSubscriber_spare (k := 0) n subs hok
      (h.mono (by rw [Nat.zero_add]; exact Nat.le_refl _))
    exact exists_map hx hs'.noWrap
  case freeSubscriber su =>
    obtain ⟨s', hx, hw'⟩ := psFreeSubscriber_exists hok hl h.refOk hw
    exact exists_map hx hw'
  case setNewMsgCb su cb =>
    obtain ⟨S, hS⟩ := Option.isSome_iff_exists.mp hl
    exact exists_map (Option.bind_eq_some_iff.mpr ⟨S, hS, rfl⟩) hw
  case setNonEmptyCb su cb =>
    obtain ⟨S, hS⟩ := Option.isSome_iff_exists.mp hl
    exact exists_map (Option.bind_eq_some_iff.mpr ⟨S, hS, rfl⟩) hw
  case get su timeout =>
    obtain ⟨⟨m, s'⟩, hx⟩ := Option.isSome_iff_exists.mp (psGet_isSome_iff.mpr ⟨hl, he⟩)
    have hms := (psGet_ok hok hx).2.2.2.1
    exact exists_map hx (hms ▸ hw)
  case flush su =>
    obtain ⟨S, hS⟩ := Option.isSome_iff_exists.mp hl
    obtain ⟨n, s', hx, hw'⟩ := psFlush_exists hS h.refOk hw
    exact exists_map hx hw'
  case waiting su =>
    obtain ⟨S, hS⟩ := Option.isSome_iff_exists.mp hl
    exact exists_map (Option.bind_eq_some_iff.mpr ⟨_, Option.bind_eq_some_iff.mpr ⟨S, hS, rfl⟩, rfl⟩) hw
  case overflow su =>
    obtain ⟨S, hS⟩ := Option.isSome_iff_exists.mp hl
    exact exists_map (Option.bind_eq_some_iff.mpr ⟨S, hS, rfl⟩) hw
  case numSubs su =>
    obtain ⟨S, hS⟩ := Option.isSome_iff_exists.mp hl
    exact exists_map (Option.bind_eq_some_iff.mpr ⟨_, Option.bind_eq_some_iff.mpr ⟨S, hS, rfl⟩, rfl⟩) hw
  case subscribe su topic =>
    obtain ⟨r, s', hx, hs', -⟩ := psSubscribeFlags_spare (k := 0) hok hl
      (subFlags_none_priority topic) (h.mono (by rw [Nat.zero_add]; exact Nat.le_refl _))
    exact exists_map hx hs'.noWrap
  case subscribeFlags su topic flags =>
    by_cases hin : su ∈ (entriesAt c.bus.topicMap (cutFlags topic)).map SubscriberList.su
    · exact exists_map (psSubscribeFlags_listed hok flags hin) hw
    · obtain ⟨r, s', hx, hs', -⟩ := psSubscribeFlags_spare (k := 0) hok hl (hprio hin)
        (h.mono (by rw [Nat.zero_add]; exact Nat.le_refl _))
      exact exists_map hx hs'.noWrap
  case subscribeMany su subs =>
    by_cases hne : subs.getD [] = []
    · obtain ⟨n, hx⟩ : ∃ n, psSubscribeMany c.bus su subs = some (n, c.bus) := by
        cases subs with
        | none => exact ⟨0, rfl⟩
        | some topics =>
          obtain rfl : topics = [] := hne
          exact ⟨0, rfl⟩
      exact exists_map hx hw
    · obtain ⟨topics, rfl⟩ : ∃ topics, subs = some topics := by
        cases subs with
        | none => exact absurd rfl hne
        | some topics => exact ⟨topics, rfl⟩
      obtain ⟨n, s', hx, hs'⟩ := psSubscribeMany_spare (k := 0) hok (hl hne)
        (h.mono (by rw [Nat.zero_add]; exact Nat.le_refl _))
      exact exists_map hx hs'.noWrap
  case unsubscribe su topic =>
    obtain ⟨r, s', hx⟩ := psUnsubscribe_exists hok su topic
    exact exists_map hx (psUnsubscribe_messages hok hx ▸ hw)
  case unsubscribeMany su subs =>
    obtain ⟨n, s', hx⟩ := psUnsubscribeMany_exists hok su subs
    exact exists_map hx (psUnsubscribeMany_messages hok hx ▸ hw)
  case unsubscribeAll su =>
    obtain ⟨S, hS⟩ := Option.isSome_iff_exists.mp hl
    obtain ⟨s', hx⟩ := psUnsubscribeAll_exists hok hS
    obtain ⟨S', T, -, -, rfl, -⟩ := psUnsubscribeAll_eq_some hok hx
    exact exists_map hx hw
  case publish msg =>
    cases msg with
    | none => exact exists_map rfl hw
    | some i =>
      obtain ⟨hheld, m, hm, ht⟩ := hl i rfl
      obtain ⟨t, ht⟩ := Option.isSome_iff_exists.mp ht
      have hoffered : Op.references c.bus (.publish (some i)) =
          (route c.bus.topicMap m (cutFlags t)).length + 1 := by
        simp [Op.references, Op.references.offered, requested, replayCount, hm, ht]
      rw [hoffered] at h
      obtain ⟨n, s', hx, hw', -⟩ := psPublish_spare hok hp hm ht hheld h
      exact exists_map hx hw'
  case cleanSticky pre =>
    obtain ⟨s', hx, hw'⟩ := psCleanSticky_exists pre hok.names hok.alive h.refOk hw
    exact exists_map hx hw'
  case subsCount topic =>
    obtain ⟨n, hx⟩ := psSubsCount_exists c.bus topic
    exact exists_map (Option.bind_eq_some_iff.mpr ⟨n, hx, rfl⟩) hw
  case call msg timeout =>
    obtain ⟨hheld, m, hm, ht⟩ := hl
    obtain ⟨t, ht⟩ := Option.isSome_iff_exists.mp ht
    rw [Op.references_call hm ht] at h
    obtain ⟨ret, s', hx, hw'⟩ := psCall_spare hok hp hm ht hheld he h
    exact exists_map hx hw'
  case waitOne topic timeout =>
    obtain ⟨ret, s', hx, hw'⟩ := (psWaitOne_spare hok h).2 he
    exact exists_map hx hw'

end Step

namespace Client

/-- A client that is entitled to a call holds the reference that it gives up. -/
theorem step_of_legal {c : Client Q} {op : Op} {r : Ret} {s' : Bus Q} (hl : op.Legal c)
    (hs : PubSub.step c.bus op = some (r, s')) : ∃ c', c.step op = some (r, c') ∧ c'.bus = s' := by
  have hgives : (op.gives.all fun msg => 0 < c.held msg) = true := by
    rw [Option.all_eq_true]
    intro i hi
    rw [decide_eq_true_eq]
    cases op
    case unrefMsg msg => exact hl i hi
    case publish msg => exact (hl i hi).1
    case call msg timeout =>
      cases hi
      exact hl.1
    all_goals cases hi
  refine ⟨⟨s', fun i => c.held i - ownRef op.gives i + ownRef r.gets i⟩, ?_, rfl⟩
  rw [step, if_pos hgives, hs]
  rfl

/-- In every run with priorities of one digit and without a counter that wrapped, and with
room in the counters for one more call: the call returns, and no counter wraps, if the
client is entitled to it and its wait ends. If the client is not entitled to it, it does not
return, nor does a wait without end. (A `ps_call` without a deadline may.) -/
theorem calls_return {h : List Label} {c : Client Q}
    (hr : Run (fun c e c' => c.step e.1 = some (e.2, c') ∧ PriorityOk c.bus e.1) Client.start h c)
    (hw : c.bus.messages.refWrap = false) (op : Op) (hprio : PriorityOk c.bus op)
    (hroom : ∀ i, c.bus.messages.refs i + op.references c.bus < 2 ^ 32) :
    (op.Legal c → op.Ends c.bus →
      ∃ r c', c.step op = some (r, c') ∧ c'.bus.messages.refWrap = false) ∧
    ((c.step op).isSome → op.Legal c ∧
      ((∀ msg timeout, op ≠ .call msg timeout) → op.Ends c.bus)) := by
  obtain ⟨ha, hp⟩ := accounted_priorities hr
  have hspare : c.bus.Spare c.held (op.references c.bus) := by
    refine ⟨ha.refOk, hw, fun i => ?_⟩
    rw [← (ha.refOk hw i).1]
    exact hroom i
  constructor
  · intro hl he
    obtain ⟨r, s', hs, hw'⟩ := hl.returns he ha.ok hp hprio hspare
    obtain ⟨c', hc, rfl⟩ := step_of_legal hl hs
    exact ⟨r, c', hc, hw'⟩
  · intro hret
    obtain ⟨⟨r, c'⟩, hx⟩ := Option.isSome_iff_exists.mp hret
    obtain ⟨hs, hgives, -⟩ := step_eq_some hx
    refine ⟨.of_step ha.ok hgives hs, fun hcall => ?_⟩
    cases op
    case get su timeout =>
      obtain ⟨y, hy, -⟩ := Option.map_eq_some_iff.mp hs
      exact (psGet_isSome_iff.mp (by rw [hy]; rfl)).2
    case call msg timeout => exact absurd rfl (hcall msg timeout)
    case waitOne topic timeout =>
      obtain ⟨y, hy, -⟩ := Option.map_eq_some_iff.mp hs
      exact (psWaitOne_spare ha.ok hspare).1 (by rw [hy]; rfl)
    all_goals trivial

/-- A wait for a sticky message that is there, and one on a topic without. -/
theorem calls_return_waitOne : ∃ c c' : Client Bucket.Queue, ∃ r,
    exec Client.step [.newMsg (some "a.b".toList) 0x801 .nil, .publish (some 0)] Client.start =
      some ([.msg (some 0), .int 0], c) ∧
    c.step (.waitOne "a.b".toList (-1)) = some (r, c') ∧ c.step (.waitOne "a".toList (-1)) = none := by
  have hcalls : (exec (Client.step (Q := Bucket.Queue))
      [.newMsg (some "a.b".toList) 0x801 .nil, .publish (some 0)] Client.start).map (fun x =>
        (x.1, !x.2.bus.messages.refWrap && x.2.bus.messages.cells.next = 1 &&
          x.2.bus.messages.refs 0 = 1 &&
          replayCount x.2.bus.topicMap [("a.b".toList, none)] = 1 &&
          replayCount x.2.bus.topicMap [("a".toList, none)] = 0)) =
      some ([.msg (some 0), .int 0], true) := by
    decide +kernel
  obtain ⟨⟨rs, c⟩, hexec, hfacts⟩ := Option.map_eq_some_iff.mp hcalls
  simp only [Prod.mk.injEq, Bool.and_eq_true, decide_eq_true_eq, Bool.not_eq_true'] at hfacts
  obtain ⟨rfl, ⟨⟨⟨hw, hnext⟩, hrefs⟩, hsticky⟩, hnone⟩ := hfacts
  have hrun := run_of_exec_all (P := fun c op => PriorityOk c.bus op) hexec (by simp [PriorityOk])
  have hsome : ∀ t, (Op.waitOne t (-1)).references c.bus = replayCount c.bus.topicMap [(t, none)] :=
    fun t => Nat.add_zero _
  have hwait := (calls_return hrun hw (.waitOne "a.b".toList (-1)) trivial fun i => by
    have := Messages.refs_le_one hnext hrefs i
    rw [hsome, hsticky]
    omega).1 trivial (.inr (by omega))
  have hnever := (calls_return hrun hw (.waitOne "a".toList (-1)) trivial fun i => by
    have := Messages.refs_le_one hnext hrefs i
    rw [hsome, hnone]
    omega).2
  obtain ⟨r, c', hwait, -⟩ := hwait
  refine ⟨c, c', r, hexec, hwait, Option.not_isSome_iff_eq_none.mp fun hret => ?_⟩
  rcases (hnever hret).2 (fun _ _ => by simp) with hend | hpos
  · exact hend (by decide)
  · omega

end Client

end PubSub
