import PubSub.Exchange.Simulation
import PubSub.SubscriptionLaws
import PubSub.SubsCount

/-! The calls on topics and subscriptions, and those made of them, on the bus and on
the exchange. -/

namespace PubSub

open Lib Bus

variable {Q : Type → Type} [PsQueue Q] [LawfulPsQueue Q] [OrderedPsQueue Q]

namespace Abstracts
variable {s s' : Bus Q} {x : Exchange} {su : SubId} {msg : MsgId} {n : ℕ}

/-! ### Pushes -/

theorem inbox_put {S : PsSubscriber Q} {p : UInt8} {ret : QueueRet} {evicted : Option MsgId}
    {q : IdleQueue Q MsgId} (hq : S.q.push msg p = some (ret, evicted, q)) :
    PsSubscriber.inbox { S with
        q := q, overflow := if ret = .ok then S.overflow else S.overflow + 1 } =
      S.inbox.put (OrderedPsQueue.rank Q p, msg) := by
  obtain ⟨hranked, hroom⟩ := IdleQueue.push_ranked hq
  exact Inbox.ext (IdleQueue.push_spec hq).1 hranked (if_congr hroom rfl rfl) rfl rfl

/-- The callbacks tell whether nothing waited before. -/
theorem deliveryCallbacks_eq {S : PsSubscriber Q} {p : UInt8} {evicted : Option MsgId}
    {q : IdleQueue Q MsgId} (hq : S.q.push msg p = some (.ok, evicted, q)) :
    deliveryCallbacks su S q.waiting = S.inbox.rings su := by
  have hlen := (IdleQueue.push_spec hq).2.ok_length
  have hone : q.waiting = 1 ↔ S.inbox.waiting = [] := by
    have hwaiting : S.inbox.waiting.length = S.q.items.length := S.q.length_ranked
    rw [q.waiting_eq, ← List.length_eq_zero_iff, hwaiting]
    omega
  have hcbs : S.inbox.nonEmptyCb = S.nonEmptyCb ∧ S.inbox.newMsgCb = S.newMsgCb := ⟨rfl, rfl⟩
  simp only [deliveryCallbacks, Inbox.rings, hone, hcbs]
  cases S.nonEmptyCb <;> cases S.newMsgCb <;> simp

theorem post {p : Push} (h : Abstracts s x) (hp : PushStep s p s') :
    ∃ x', x.post (OrderedPsQueue.rank Q) p.su p.msg p.priority = some (decide (p.ret = .ok), x') ∧
      Abstracts s' x' := by
  obtain ⟨S, evicted, q, ms₁, ms₂, ms₃, hS, hq, h₁, h₂, h₃, rfl⟩ := hp
  obtain ⟨-, hroom⟩ := IdleQueue.push_ranked hq
  have hset := (h.of_messages (((psRefMsg_sameContent h₁).trans (psUnrefMsg_sameContent h₂)).trans
    (psUnrefMsg_sameContent h₃))).setInbox p.su (inbox_put hq)
  have hdec : decide (S.inbox.waiting.length < S.inbox.size) = decide (p.ret = .ok) :=
    decide_eq_decide.mpr hroom.symm
  refine ⟨{ x.setInbox p.su (S.inbox.put (OrderedPsQueue.rank Q p.priority, p.msg)) with
    callbacks := x.callbacks ++ if decide (p.ret = .ok) then S.inbox.rings p.su else [] }, ?_,
    hset.board, hset.letters, hset.inboxes, hset.calls, ?_⟩
  · simp only [Exchange.post, h.inbox hS, Option.bind_eq_bind, Option.bind_some, hdec]
  · simp only [h.callbacks, decide_eq_true_eq]
    split
    case isTrue hret =>
      rw [hret] at hq
      rw [deliveryCallbacks_eq hq]
    case isFalse => rfl

theorem posts {ps : List Push} {priority : UInt8} {via : Str} {msgs : List MsgId}
    (h : Abstracts s x) (hps : s.Pushes ps s')
    (hreq : ps.map Push.request = msgs.map fun msg => (su, via, msg, priority)) :
    ∃ x', Exchange.posts (OrderedPsQueue.rank Q) su priority msgs x = some x' ∧ Abstracts s' x' := by
  induction msgs generalizing s x ps with
  | nil =>
    obtain rfl := List.map_eq_nil_iff.mp hreq
    rw [hps.eq_of_nil]
    exact ⟨x, rfl, h⟩
  | cons msg msgs ih =>
    obtain ⟨p, ps, rfl, hp, hrest⟩ := List.map_eq_cons_iff.mp hreq
    obtain ⟨s₁, hstep, hps⟩ := hps.of_cons
    obtain ⟨x₁, hpost, h₁⟩ := h.post hstep
    obtain ⟨rfl, -, rfl, rfl⟩ : p.su = su ∧ p.via = via ∧ p.msg = msg ∧ p.priority = priority := by
      simpa [Push.request] using hp
    obtain ⟨x', hposts, h'⟩ := ih h₁ hps hrest
    refine ⟨x', ?_, h'⟩
    simp only [Exchange.posts, hpost, Option.bind_eq_bind, Option.bind_some]
    exact hposts

/-- The offers of a message are its deliveries. -/
theorem deliver {es : List (Str × SubscriberList)} {as : List Attempt} {qs : Queues Q}
    (h : Abstracts s x) (ho : offers msg es (queuesOf s.subscribers) = some (as, qs))
    (hp : s.Pushes (as.map (Attempt.push msg)) s') :
    ∃ x', Exchange.deliver (OrderedPsQueue.rank Q) msg (es.map Prod.snd) x =
      some (as.countP Attempt.counted, x') ∧ Abstracts s' x' := by
  induction es generalizing s x as with
  | nil =>
    cases ho
    rw [hp.eq_of_nil]
    exact ⟨x, rfl, h⟩
  | cons e es ih =>
    obtain ⟨as₁, as₂, qs₁, he, hes, rfl⟩ := offers_cons_eq_some ho
    obtain ⟨q, hq, hcases⟩ := offer_cases he
    obtain ⟨S, hS, rfl⟩ := queuesOf_eq_some.mp hq
    have hskip : (e.2.onEmpty && decide (S.inbox.waiting ≠ [])) =
        (e.2.onEmpty && decide (S.q.waiting ≠ 0)) := by
      have hwaiting : S.inbox.waiting.length = S.q.waiting := by
        rw [S.q.waiting_eq, ← S.q.length_ranked]
        rfl
      rw [← hwaiting]
      simp only [ne_eq, List.length_eq_zero_iff]
    simp only [List.map_cons, Exchange.deliver, h.inbox hS, Option.bind_eq_bind, Option.bind_some,
      hskip]
    rcases hcases with ⟨hyes, rfl, rfl⟩ | ⟨hno, ret, evicted, q', hpush, rfl, rfl⟩
    · rw [if_pos hyes]
      exact ih h hes hp
    · rw [if_neg hno]
      obtain ⟨s₁, hstep, hrest⟩ := hp.of_cons
      obtain ⟨x₁, hpost, h₁⟩ := h.post hstep
      have hqs : queuesOf s₁.subscribers =
          Function.update (queuesOf s.subscribers) e.2.su (some q') := by
        obtain ⟨q₀, ev, q₁, hq₀, hpush₀, hqs⟩ := hstep.queues
        cases hq.symm.trans hq₀
        cases hpush.symm.trans hpush₀
        exact hqs
      obtain ⟨x', hdel, h'⟩ := ih h₁ (by rw [hqs]; exact hes) hrest
      refine ⟨x', ?_, h'⟩
      have hcounted : Attempt.counted ⟨e.1, e.2, ret⟩ =
          (decide ((Attempt.push msg ⟨e.1, e.2, ret⟩).ret = .ok) && !e.2.hidden) := rfl
      rw [List.singleton_append, List.countP_cons, hcounted]
      refine (Option.bind_eq_some_iff.mpr ⟨_, hpost, ?_⟩)
      rw [hdel, Option.bind_some]
      split <;> rfl

/-! ### Topics -/

/-- The topic that the bus finds, or none of its kind. -/
theorem topic (h : Abstracts s x) (hn : Names s.topicMap) (name : Str) :
    x.board.topic name = (topicAt s.topicMap name).getD ⟨name, [], none⟩ := by
  rw [Board.topic, h.board, find?_values hn]

theorem subscribers (h : Abstracts s x) (hn : Names s.topicMap) (name : Str) :
    (x.board.topic name).subscribers = entriesAt s.topicMap name := by
  rw [h.topic hn, entriesAt]
  cases topicAt s.topicMap name <;> rfl

theorem sticky (h : Abstracts s x) (hn : Names s.topicMap) (name : Str) :
    (x.board.topic name).sticky = stickyAt s.topicMap name := by
  rw [h.topic hn, stickyAt]
  cases topicAt s.topicMap name <;> rfl

theorem has (su : SubId) (h : Abstracts s x) (hn : Names s.topicMap) (name : Str) :
    (x.board.topic name).has su = true ↔ su ∈ (entriesAt s.topicMap name).map SubscriberList.su := by
  rw [mem_map_su, TopicMap.has, h.subscribers hn]

theorem subscriptions (h : Abstracts s x) (hn : Names s.topicMap) (names : List Str) :
    x.subscriptions names = (subscriptionsAt s.topicMap names).map Prod.snd := by
  rw [Exchange.subscriptions, subscriptionsAt, List.map_flatMap]
  refine List.flatMap_congr fun name _ => ?_
  rw [h.subscribers hn, List.map_map]
  exact (List.map_id _).symm

theorem publish (h : Abstracts s x) (hok : s.Ok) (hp : psPublish s (some msg) = some (n, s')) :
    ∃ x', x.publish (OrderedPsQueue.rank Q) (some msg) = some (n, x') ∧ Abstracts s' x' := by
  obtain ⟨m, topic, as, s₀, s₁, hpub⟩ := psPublish_published hok.names hok.alive hp
  obtain ⟨text, htext, rfl⟩ := hpub.topic_eq
  have hletter := h.letters.content msg m hpub.get
  have hoffers := hpub.offers
  have hstep := hpub.stickyStep
  have hedit := hstep.edit hok.names hok.alive (not_mem_cutFlags text)
  have h₀ : Abstracts s₀ (x.editTopic (cutFlags text) (.retain (m.retained msg))) := by
    have hcontent := hstep.sameContent
    obtain ⟨ms₁, ms₂, -, -, rfl⟩ := hstep
    refine ⟨?_, h.letters.sameContent hcontent, h.inboxes, h.calls, h.callbacks⟩
    rw [values_setSticky hok.names, ← h.board]
    rfl
  have hsubs : (x.editTopic (cutFlags text) (.retain (m.retained msg))).subscriptions
      (visited m (cutFlags text)) = (route s.topicMap m (cutFlags text)).map Prod.snd := by
    rw [h₀.subscriptions hedit.names, ← route_of_edit hedit]
    rfl
  rw [← hstep.subscribers] at hoffers
  obtain ⟨x', hdel, h'⟩ := h₀.deliver hoffers hpub.pushes
  obtain ⟨ms, hrel, rfl⟩ := hpub.release
  refine ⟨x', ?_, h'.of_messages (psUnrefMsg_sameContent hrel)⟩
  have htopic : m.body.topic = some text := htext
  simp only [Exchange.publish, hletter, htopic, Option.bind_eq_bind, Option.bind_some]
  rw [← hpub.count] at hdel
  rw [← hdel, ← hsubs]
  rfl

/-- The messages that a new subscription is sent. -/
theorem replay (h : Abstracts s x) (hn : Names s.topicMap) (topic : Str) (flags : PsSubFlags) :
    x.replay topic flags = replayed s.topicMap topic flags := by
  have hchild : (fun tm => (s.topicMap.get tm).bind fun t =>
      if inSubtree topic t.topic then t.sticky else none) =
      fun tm => (s.topicMap.get tm).bind fun t =>
        if IsAncestor '.' topic t.topic then t.sticky else none := by
    simp only [inSubtree_iff]
  rw [Exchange.replay, replayed, h.sticky hn, childStickies, hchild, Cells.filterMap_ids, h.board]

theorem subscribe {text : Str} {pflags : Option PsSubFlags} {r : ℤ} (h : Abstracts s x) (hok : s.Ok)
    (hs : psSubscribeFlags s su text pflags = some (r, s')) :
    ∃ x', x.subscribe (OrderedPsQueue.rank Q) su text pflags = some (r, x') ∧ Abstracts s' x' := by
  have hlisted := h.has su hok.names (cutFlags text)
  rcases psSubscribeFlags_cases hok hs with ⟨rfl, hin, rfl⟩ | ⟨rfl, s₁, ps, hsub⟩
  · refine ⟨x, ?_, h⟩
    simp only [Exchange.subscribe, if_pos (hlisted.mpr hin)]
  · obtain ⟨S, tm₁, hS, hsubs⟩ := hsub.subscribers
    obtain ⟨hms, -, -⟩ := hsub.rest
    have hboard : s₁.topicMap.values = editTopics (cutFlags text)
        (.join ⟨su, (subFlags text pflags).hidden, (subFlags text pflags).onEmpty,
          (subFlags text pflags).priority.toInt8⟩) s.topicMap.values := by
      obtain ⟨tm, T, t, hT, ht, htable⟩ := psSubscribeFlags_table hs
      rw [← hsub.pushes.sameShape.topicMap, htable]
      exact values_join hok.names hT ht _
    have hinboxes : s₁.subscribers.map PsSubscriber.inbox =
        s.subscribers.map PsSubscriber.inbox := by
      rw [hsubs]
      exact Cells.map_modify_same _ _ hS rfl
    have h₁ : Abstracts s₁ (x.editTopic (cutFlags text)
        (.join ⟨su, (subFlags text pflags).hidden, (subFlags text pflags).onEmpty,
          (subFlags text pflags).priority.toInt8⟩)) := by
      refine ⟨?_, hms ▸ h.letters, h.inboxes.trans hinboxes.symm, ?_, ?_⟩
      · rw [hboard, ← h.board]
        rfl
      · rw [hsub.quiet.uuidCtr]
        exact h.calls
      · rw [hsub.callbacks]
        exact h.callbacks
    have hreq := hsub.requests
    rw [← h₁.replay hsub.quiet.ok.names] at hreq
    obtain ⟨x', hposts, h'⟩ := h₁.posts hsub.pushes hreq
    refine ⟨x', ?_, h'⟩
    simp only [Exchange.subscribe, if_neg (fun hyes => hsub.fresh (hlisted.mp hyes)), h.inbox hS,
      Option.bind_eq_bind, Option.bind_some, hposts]

/-- A list of calls, each of which the exchange follows. -/
theorem each {f : Bus Q → Str → Option (ℤ × Bus Q)} {g : Exchange → Str → Option (ℤ × Exchange)}
    (hf : ∀ (s s' : Bus Q) x text r, s.Ok → Abstracts s x → f s text = some (r, s') →
      s'.Ok ∧ ∃ x', g x text = some (r, x') ∧ Abstracts s' x')
    {texts : List Str} (h : Abstracts s x) (hok : s.Ok) (hs : countOks f texts s = some (n, s')) :
    ∃ x', Exchange.each g texts x = some (n, x') ∧ Abstracts s' x' := by
  induction texts generalizing s x n with
  | nil =>
    cases hs
    exact ⟨x, rfl, h⟩
  | cons text texts ih =>
    simp only [countOks, Option.bind_eq_bind, Option.bind_eq_some_iff] at hs
    obtain ⟨⟨r, s₁⟩, h₁, ⟨k, s₂⟩, h₂, heq⟩ := hs
    cases heq
    obtain ⟨hok₁, x₁, hx₁, ha₁⟩ := hf s s₁ x text r hok h h₁
    obtain ⟨x', hx', h'⟩ := ih ha₁ hok₁ h₂
    refine ⟨x', ?_, h'⟩
    simp only [Exchange.each, hx₁, hx', Option.bind_eq_bind, Option.bind_some]

theorem subscribeMany {subs : Option (List Str)} (h : Abstracts s x) (hok : s.Ok)
    (hs : psSubscribeMany s su subs = some (n, s')) :
    ∃ x', Exchange.each (fun x text => x.subscribe (OrderedPsQueue.rank Q) su text none)
      (subs.getD []) x = some (n, x') ∧ Abstracts s' x' := by
  cases subs with
  | none =>
    cases hs
    exact ⟨x, rfl, h⟩
  | some subs =>
    exact each (f := fun s text => psSubscribe s su text) (fun s s' x text r hok h hs =>
      ⟨(psSubscribeFlags_quiet hok hs).1.ok, h.subscribe hok hs⟩) h hok hs

theorem unsubscribe {text : Str} {r : ℤ} (h : Abstracts s x) (hok : s.Ok)
    (hs : psUnsubscribe s su text = some (r, s')) :
    (x.unsubscribe su text).1 = r ∧ Abstracts s' (x.unsubscribe su text).2 := by
  have hlisted := h.has su hok.names (cutFlags text)
  rw [Exchange.unsubscribe]
  rcases psUnsubscribe_cases hok hs with ⟨rfl, hnot, rfl⟩ | ⟨rfl, hin, S, tm, hS, -, hsubs, -, heq, hq⟩
  · rw [if_neg (fun hyes => hnot (hlisted.mp hyes))]
    exact ⟨rfl, h⟩
  · rw [if_pos (hlisted.mpr hin)]
    refine ⟨rfl, ?_, ?_, ?_, ?_, ?_⟩
    · rw [psUnsubscribe_table hok hs, ← h.board]
      rfl
    · rw [heq]
      exact h.letters
    · rw [hsubs]
      exact h.inboxes.trans (Cells.map_modify_same _ _ hS (by rfl)).symm
    · rw [hq.uuidCtr]
      exact h.calls
    · rw [heq]
      exact h.callbacks

theorem unsubscribeMany {subs : Option (List Str)} (h : Abstracts s x) (hok : s.Ok)
    (hs : psUnsubscribeMany s su subs = some (n, s')) :
    ∃ x', Exchange.each (fun x text => some (x.unsubscribe su text)) (subs.getD []) x =
      some (n, x') ∧ Abstracts s' x' := by
  cases subs with
  | none =>
    cases hs
    exact ⟨x, rfl, h⟩
  | some subs =>
    refine each (fun s s' x text r hok h hs => ⟨(psUnsubscribe_quiet hok hs).1.ok, ?_⟩) h hok hs
    obtain ⟨hr, h'⟩ := h.unsubscribe hok hs
    exact ⟨_, by rw [← hr], h'⟩

/-- A subscriber lists the topics that list it. -/
theorem countP_has (h : Abstracts s x) (hok : s.Ok) {S : PsSubscriber Q}
    (hS : s.subscribers.get su = some S) :
    x.board.topics.countP (TopicMap.has su) = S.subs.length := by
  have hsubs := subsOf_of_get hS
  have hperm : S.subs.Perm
      ((List.range s.topicMap.next).filter fun i => (s.topicMap.get i).any (TopicMap.has su)) := by
    rw [List.perm_ext_iff_of_nodup (hok.links.subsNodup su S.subs hsubs)
      (List.nodup_range.filter _)]
    intro i
    rw [hok.links.mem_iff su S.subs hsubs, List.mem_filter, List.mem_range, entriesOf]
    cases ht : s.topicMap.get i with
    | none => simp
    | some t =>
      rw [Option.any_some, TopicMap.has, ← mem_map_su]
      exact (and_iff_right (Cells.lt_next ht)).symm
  rw [h.board, Cells.values, List.countP_filterMap, List.countP_eq_length_filter, hperm.length_eq]
  congr 2
  funext i
  cases s.topicMap.get i <;> rfl

theorem numSubs (h : Abstracts s x) (hok : s.Ok) (hn : psNumSubs s su = some n) :
    x.numSubs su = some n := by
  obtain ⟨S, hS, heq⟩ := Option.bind_eq_some_iff.mp hn
  cases heq
  rw [Exchange.numSubs, h.inbox hS, Option.map_some, h.countP_has hok hS]

theorem unsubscribeAll (h : Abstracts s x) (hok : s.Ok)
    (hs : psUnsubscribeAll s su = some (n, s')) :
    ∃ x', x.unsubscribeAll su = some (n, x') ∧ Abstracts s' x' := by
  have htable := psUnsubscribeAll_table hok hs
  obtain ⟨S, T, hS, rfl, rfl, -, -, -⟩ := psUnsubscribeAll_eq_some hok hs
  have hcount : x.numSubs su = some S.subs.length := by
    rw [Exchange.numSubs, h.inbox hS, Option.map_some, h.countP_has hok hS]
  refine ⟨{ x with board := x.board.sweep (.leave su) }, ?_, ?_, h.letters, ?_, h.calls,
    h.callbacks⟩
  · rw [Exchange.unsubscribeAll, hcount]
    rfl
  · rw [htable, ← h.board]
    rfl
  · have hmod : s.subscribers.modify su (fun S => { S with subs := [] }) =
        s.subscribers.modify su fun _ => { S with subs := [] } := by
      rw [Cells.modify_eq_set hS, Cells.modify_eq_set hS]
    refine h.inboxes.trans ?_
    rw [hmod]
    exact (Cells.map_modify_same _ _ hS (by rfl)).symm

theorem freeSubscriber (h : Abstracts s x) (hok : s.Ok) (hs : psFreeSubscriber s su = some s') :
    ∃ x', x.freeSubscriber su = some x' ∧ Abstracts s' x' := by
  simp only [psFreeSubscriber, Option.bind_eq_bind, Option.bind_eq_some_iff, Option.some.injEq] at hs
  obtain ⟨⟨n, s₁⟩, h₁, ⟨k, s₂⟩, h₂, S, hS, queued, hqueued, ms, hms, rfl⟩ := hs
  obtain ⟨x₁, hx₁, ha₁⟩ := h.unsubscribeAll hok h₁
  obtain ⟨S₁, q, ms₂, hS₁, hf⟩ := psFlush_flushed h₂
  have hempty : S.q.items = [] := by
    rw [hf.state, Cells.get_modify_self, hS₁, Option.map_some] at hS
    cases hS
    exact hf.empty
  rw [IdleQueue.free_empty hempty] at hqueued
  cases hqueued
  cases hms
  refine ⟨{ x₁ with inboxes := x₁.inboxes.free su }, ?_, ?_⟩
  · rw [Exchange.freeSubscriber, hx₁]
    rfl
  · rw [hf.state]
    refine ⟨ha₁.board, ha₁.letters.sameContent hf.content, ?_, ha₁.calls, ha₁.callbacks⟩
    have hfree : (s₁.subscribers.modify su fun _ => { S₁ with q := q }).free su =
        s₁.subscribers.free su := by
      rw [Cells.free_modify hS₁]
      refine Cells.ext_get (c := s₁.subscribers.free su) rfl fun i => ?_
      rw [Cells.get_set hS₁, Cells.get_free]
    dsimp only
    rw [hfree, ha₁.inboxes, Cells.map_free]

theorem newSubscriber {queueSize : ℕ} {subs : Option (List Str)} (h : Abstracts s x) (hok : s.Ok)
    (hs : psNewSubscriber s queueSize subs = some (su, s')) :
    ∃ x', x.newSubscriber (OrderedPsQueue.rank Q) queueSize subs = some (su, x') ∧
      Abstracts s' x' := by
  obtain ⟨rfl, n, s₁, hmany, rfl⟩ := psNewSubscriber_eq_some hs
  have hnew : Abstracts (addSubscriber s queueSize)
      { x with inboxes := x.inboxes.alloc (.new queueSize) } := by
    refine ⟨h.board, h.letters, ?_, h.calls, h.callbacks⟩
    have hinbox : (PubSub.newSubscriber queueSize : PsSubscriber Q).inbox = .new queueSize :=
      Inbox.ext (IdleQueue.capacity_new _) (IdleQueue.ranked_new _) rfl rfl rfl
    dsimp only
    rw [addSubscriber, Cells.map_alloc, hinbox, h.inboxes]
  have hnext : x.inboxes.next = s.subscribers.next := by rw [h.inboxes, Cells.next_map]
  obtain ⟨x', hx', h'⟩ := hnew.subscribeMany (addSubscriber_quiet hok queueSize).ok hmany
  refine ⟨x', ?_, h'.board, h'.letters, h'.inboxes, h'.calls, h'.callbacks⟩
  simp only [Exchange.newSubscriber, hnext, hx', Option.bind_eq_bind, Option.bind_some]

theorem cleanSticky {pre : Str} (h : Abstracts s x) (hok : s.Ok)
    (hs : psCleanSticky s pre = some s') : Abstracts s' (x.cleanSticky pre) := by
  have hc := psCleanSticky_cleaned hok.names hok.alive hs
  refine ⟨?_, h.letters.sameContent hc.content, ?_, h.calls.trans hc.uuidCtr.symm,
    h.callbacks.trans hc.callbacks.symm⟩
  · rw [psCleanSticky_table hok hs, ← h.board]
    rfl
  · rw [hc.subscribers]
    exact h.inboxes

/-! ### Calls made of calls -/

/-- The part of `ps_call` before its wait. -/
theorem call_sent {s₁ s₂ s₃ : Bus Q} {ms : Messages} (h : Abstracts s x) (hok : s.Ok)
    (hms : psMsgSetRtopic s.messages msg (some (callTopic (s.uuidCtr + 1))) = some ms)
    (hs₁ : s₁ = { s with uuidCtr := s.uuidCtr + 1, messages := ms })
    (hnew : psNewSubscriber s₁ 1 (some [callTopic (s.uuidCtr + 1)]) = some (su, s₂))
    (hpub : psPublish s₂ (some msg) = some (n, s₃)) :
    ∃ x₃, Abstracts s₃ x₃ ∧ ∀ timeout, x.call (OrderedPsQueue.rank Q) msg timeout =
      (if n = 0 then some (none, x₃) else x₃.get su timeout).bind fun y =>
        (y.2.freeSubscriber su).bind fun x' => some (y.1, x') := by
  obtain ⟨m, hm, rfl⟩ := psMsgSetRtopic_eq_some hms
  have h₀ : Abstracts { s with uuidCtr := s.uuidCtr + 1 } { x with calls := x.calls + 1 } :=
    ⟨h.board, h.letters, h.inboxes, congrArg (· + 1) h.calls, h.callbacks⟩
  have hcalls : x.calls + 1 = s.uuidCtr + 1 := congrArg (· + 1) h.calls
  obtain ⟨x₁, hx₁, h₁⟩ := h₀.editLetter { m with rtopic := some (callTopic (s.uuidCtr + 1)) }
    (f := fun m => some { m with rtopic := some (callTopic (s.uuidCtr + 1)) }) hm rfl
  have hrtopic : Exchange.setRtopic { x with calls := s.uuidCtr + 1 } msg
      (some (callTopic (s.uuidCtr + 1))) = some x₁ := hcalls ▸ hx₁
  have hok₁ : s₁.Ok := hs₁ ▸ modifyMsg_ok hok _
  rw [← hs₁] at h₁
  obtain ⟨x₂, hx₂, h₂⟩ := h₁.newSubscriber hok₁ hnew
  obtain ⟨x₃, hx₃, h₃⟩ := h₂.publish (psNewSubscriber_quiet hok₁ hnew).ok hpub
  refine ⟨x₃, h₃, fun timeout => ?_⟩
  simp only [Exchange.call, hcalls, hrtopic, hx₂, hx₃, Option.bind_eq_bind, Option.bind_some]
  split
  · rfl
  · rfl

theorem call {timeout : Int64} {r : Option MsgId} (h : Abstracts s x) (hok : s.Ok)
    (hs : psCall s msg timeout = some (r, s')) :
    ∃ x', x.call (OrderedPsQueue.rank Q) msg timeout = some (r, x') ∧ Abstracts s' x' := by
  obtain ⟨s₁, s₂, s₃, s₄, su, n, hc⟩ := psCall_called hs
  obtain ⟨hok₁, hok₂, hok₃, hok₄, -⟩ := hc.oks hok
  obtain ⟨ms, hms, hs₁⟩ := hc.counter
  obtain ⟨x₃, h₃, hcall⟩ := h.call_sent hok hms hs₁ hc.new hc.publish
  have hget : ∃ x₄, (if n = 0 then some (none, x₃) else x₃.get su timeout) = some (r, x₄) ∧
      Abstracts s₄ x₄ := by
    rcases hc.get with ⟨hn, rfl, rfl⟩ | ⟨hn, hg⟩
    · exact ⟨x₃, if_pos hn, h₃⟩
    · rw [if_neg hn]
      exact h₃.get hg
  obtain ⟨x₄, hx₄, h₄⟩ := hget
  obtain ⟨x', hx', h'⟩ := h₄.freeSubscriber hok₄ hc.free
  exact ⟨x', by rw [hcall, hx₄, Option.bind_some, hx']; rfl, h'⟩

/-- The part of `ps_wait_one` before its wait. -/
theorem waitOne_sent {topic : Str} {s₁ : Bus Q} (h : Abstracts s x) (hok : s.Ok)
    (hnew : psNewSubscriber s 1 (some [topic]) = some (su, s₁)) :
    ∃ x₁, Abstracts s₁ x₁ ∧ ∀ timeout, x.waitOne (OrderedPsQueue.rank Q) topic timeout =
      (x₁.get su timeout).bind fun y => (y.2.freeSubscriber su).bind fun x' => some (y.1, x') := by
  obtain ⟨x₁, hx₁, h₁⟩ := h.newSubscriber hok hnew
  refine ⟨x₁, h₁, fun timeout => ?_⟩
  simp only [Exchange.waitOne, hx₁, Option.bind_eq_bind, Option.bind_some]

theorem waitOne {topic : Str} {timeout : Int64} {r : Option MsgId} (h : Abstracts s x) (hok : s.Ok)
    (hs : psWaitOne s topic timeout = some (r, s')) :
    ∃ x', x.waitOne (OrderedPsQueue.rank Q) topic timeout = some (r, x') ∧ Abstracts s' x' := by
  obtain ⟨su, s₁, s₂, hnew, hget, hfree⟩ := psWaitOne_eq_some hs
  have hok₁ := (psNewSubscriber_quiet hok hnew).ok
  obtain ⟨x₁, h₁, hwait⟩ := h.waitOne_sent hok hnew
  obtain ⟨x₂, hx₂, h₂⟩ := h₁.get hget
  obtain ⟨x', hx', h'⟩ := h₂.freeSubscriber (psGet_ok hok₁ hget).1 hfree
  exact ⟨x', by rw [hwait, hx₂, Option.bind_some, hx']; rfl, h'⟩

end Abstracts

end PubSub
