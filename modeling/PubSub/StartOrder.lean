import PubSub.Bus.Shares
import PubSub.Origins
import PubSub.PublishRoute
import PubSub.StickyReplay

/-! A sticky message and a new subscription to its topic, in either order. What
reaches the subscriber by the loop of `ps_publish` if it subscribes first reaches
it by the replay if it comes later. -/

namespace PubSub

open Lib Bus

variable {Q : Type → Type} [PsQueue Q] [LawfulPsQueue Q]

section Route
variable {topicMap topicMap' : Cells TopicMap} {m : PsMsg} {topic : Str} {sl : SubscriberList}
  {su x : SubId}

/-- The topic itself comes first, and only there. -/
theorem visited_head (m : PsMsg) (topic : Str) :
    ∃ rest, visited m topic = topic :: rest ∧ topic ∉ rest := by
  have hhead : ∃ rest, visited m topic = topic :: rest := by
    by_cases hm : m.nonrecursive = true
    · exact ⟨[], visited_nonrecursive hm⟩
    · by_cases ht : topic = []
      · exact ⟨[], by rw [ht, visited_nil]⟩
      · exact ⟨_, visited_cons (Bool.eq_false_iff.mpr hm) ht⟩
  obtain ⟨rest, hrest⟩ := hhead
  have hsorted : (visited m topic).Pairwise fun p q => q.length < p.length := visited_sorted
  rw [hrest, List.pairwise_cons] at hsorted
  exact ⟨rest, hrest, fun hmem => Nat.lt_irrefl _ (hsorted.1 topic hmem)⟩

/-- A new entry at the end of the topic's list stands between the old entries of the
topic and those of its ancestors. -/
theorem route_insert (h : entriesAt topicMap' =
      Function.update (entriesAt topicMap) topic (entriesAt topicMap topic ++ [sl])) :
    ∃ es fs, route topicMap m topic = es ++ fs ∧
      route topicMap' m topic = es ++ (topic, sl) :: fs := by
  obtain ⟨rest, hvisited, hnot⟩ := visited_head m topic
  refine ⟨(entriesAt topicMap topic).map (topic, ·), subscriptionsAt topicMap rest, ?_, ?_⟩
  · rw [route, hvisited]
    rfl
  · have hrest : subscriptionsAt topicMap' rest = subscriptionsAt topicMap rest := by
      apply List.flatMap_congr
      intro name hname
      have hne : name ≠ topic := by
        rintro rfl
        exact hnot hname
      rw [h, Function.update_of_ne hne]
    rw [route, hvisited, ← List.singleton_append, subscriptionsAt_append, hrest]
    simp [subscriptionsAt, h]

theorem entriesFor_route_nil
    (h : ∀ name, IsAncestor '.' name topic → su ∉ (entriesAt topicMap name).map SubscriberList.su) :
    entriesFor su (route topicMap m topic) = [] := by
  rw [entriesFor, List.filter_eq_nil_iff]
  intro sl hsl hsu
  obtain ⟨e, he, rfl⟩ := List.mem_map.mp hsl
  obtain ⟨name, hname, hentry⟩ := List.mem_flatMap.mp he
  obtain ⟨sl, hmem, rfl⟩ := List.mem_map.mp hentry
  apply h name (isAncestor_of_visited hname)
  exact List.mem_map.mpr ⟨sl, hmem, by simpa using hsu⟩

/-- The entries of each subscriber on the two routes. -/
theorem entriesFor_insert {es fs : List (Str × SubscriberList)} (x : SubId) (hsu : sl.su = su)
    (hnil : entriesFor su (es ++ fs) = []) :
    entriesFor x (es ++ (topic, sl) :: fs) =
      if x = su then [sl] else entriesFor x (es ++ fs) := by
  rw [entriesFor_append] at hnil ⊢
  split
  case isTrue hx =>
    subst hx
    have hcons : entriesFor x ((topic, sl) :: fs) = sl :: entriesFor x fs :=
      entriesFor_cons_self hsu
    obtain ⟨hes, hfs⟩ := List.append_eq_nil_iff.mp hnil
    rw [hcons, hes, hfs, List.nil_append]
  case isFalse hx =>
    have hne : sl.su ≠ x := by
      rw [hsu]
      exact Ne.symm hx
    have hcons : entriesFor x ((topic, sl) :: fs) = entriesFor x fs := entriesFor_cons_ne hne
    rw [hcons, entriesFor_append]

theorem not_mem_of_entriesFor {es : List (Str × SubscriberList)} (hnil : entriesFor su es = [])
    {e : Str × SubscriberList} (he : e ∈ es) : e.2.su ≠ su := by
  intro hsu
  have hmem : e.2 ∈ entriesFor su es :=
    List.mem_filter.mpr ⟨List.mem_map_of_mem he, by simpa using hsu⟩
  rw [hnil] at hmem
  cases hmem

end Route

section Attempts
variable {msg : MsgId} {es fs : List (Str × SubscriberList)} {qs qs' : Queues Q} {as : List Attempt}
  {su : SubId} {sl : SubscriberList} {topic : Str}

/-- Without an entry there is no push. -/
theorem filter_attempts_nil (h : offers msg es qs = some (as, qs')) (hnil : entriesFor su es = []) :
    (as.map (Attempt.push msg)).filter (fun p => p.su = su) = [] := by
  rw [List.filter_eq_nil_iff]
  intro p hp
  obtain ⟨a, ha, rfl⟩ := List.mem_map.mp hp
  have hne := not_mem_of_entriesFor hnil (offers_mem h ha)
  show ¬ decide (a.sl.su = su) = true
  rw [decide_eq_true_eq]
  exact hne

/-- One entry that is not `on_empty` is one push, with the answer of the queue. -/
theorem filter_attempts_insert {q : IdleQueue Q MsgId}
    (h : offers msg (es ++ (topic, sl) :: fs) qs = some (as, qs')) (hsu : sl.su = su)
    (hon : sl.onEmpty = false) (hnil : entriesFor su (es ++ fs) = []) (hq : qs su = some q) :
    ∃ ret evicted q', q.push msg sl.priority.toUInt8 = some (ret, evicted, q') ∧
      (as.map (Attempt.push msg)).filter (fun p => p.su = su) =
        [⟨su, topic, msg, sl.priority.toUInt8, ret⟩] := by
  obtain ⟨q₁, -, hto⟩ := offers_share h hq
  rw [entriesFor_insert su hsu hnil, if_pos rfl] at hto
  have hskip : ¬ (sl.onEmpty && q.waiting ≠ 0) = true := by simp [hon]
  rw [offersTo, if_neg hskip] at hto
  obtain ⟨⟨ret, evicted, q'⟩, hp, hto⟩ := Option.bind_eq_some_iff.mp hto
  have hans : answersOf su as = [ret] := by
    simp only [offersTo, Option.bind_eq_bind, Option.bind_some, Option.some.injEq,
      Prod.mk.injEq] at hto
    exact hto.1.symm
  refine ⟨ret, evicted, q', hp, ?_⟩
  obtain ⟨a, hfilter, rfl⟩ := List.map_eq_singleton_iff.mp hans
  have ha : a ∈ as.filter fun a => a.sl.su = su := by
    rw [hfilter]
    exact List.mem_singleton_self a
  obtain ⟨hmem, hasu⟩ := List.mem_filter.mp ha
  rw [decide_eq_true_eq] at hasu
  -- the attempt is for the new entry: no other is of the subscriber
  have hentry : (a.via, a.sl) = (topic, sl) := by
    rcases List.mem_append.mp (offers_mem h hmem) with hes | hrest
    · exact absurd hasu (not_mem_of_entriesFor hnil (List.mem_append_left _ hes))
    · rcases List.mem_cons.mp hrest with heq | hfs
      · exact heq
      · exact absurd hasu (not_mem_of_entriesFor hnil (List.mem_append_right _ hfs))
  obtain ⟨rfl, rfl⟩ := Prod.mk.inj hentry
  have hcomm : (as.map (Attempt.push msg)).filter (fun p => p.su = su) =
      (as.filter fun a => a.sl.su = su).map (Attempt.push msg) := List.filter_map
  rw [hcomm, hfilter, ← hsu]
  rfl

end Attempts

/-- What a publish of `msg` and a subscription of `su` with the entry `sl` come to:
each subscriber is offered the message for its entries on the route, and `su` for
its new one. -/
structure Joined (s : Bus Q) (msg : MsgId) (m : PsMsg) (topic : Str) (su : SubId)
    (sl : SubscriberList) (s' : Bus Q) : Prop where
  record : ∀ x, (s'.subscribers.get x).map PsSubscriber.own = (s.subscribers.get x).bind fun S =>
    S.own.offered msg (if x = su then [sl] else entriesFor x (route s.topicMap m topic))
  sticky : stickyAt s'.topicMap = Function.update (stickyAt s.topicMap) topic (some msg)
  entries : entriesAt s'.topicMap =
    Function.update (entriesAt s.topicMap) topic (entriesAt s.topicMap topic ++ [sl])
  offered : ∃ q ret evicted q' ps, queuesOf s.subscribers su = some q ∧
    q.push msg sl.priority.toUInt8 = some (ret, evicted, q') ∧ s'.pushes = s.pushes ++ ps ∧
    ps.filter (fun p => p.su = su) = [⟨su, topic, msg, sl.priority.toUInt8, ret⟩]

section Orders
variable {s a b : Bus Q} {msg : MsgId} {m : PsMsg} {t : Str} {su : SubId}
  {pflags : Option PsSubFlags} {n : ℕ} {r : ℤ} {as : List Attempt} {s₀ s₁ : Bus Q}

/-- The parts of a publish of a known message. -/
theorem psPublish_published_of {mt : Str} (hok : s.Ok) (hm : s.messages.cells.get msg = some m)
    (hmt : m.topic = some mt) (h : psPublish s (some msg) = some (n, a)) :
    ∃ as s₀ s₁, Published s msg n a m (cutFlags mt) as s₀ s₁ := by
  obtain ⟨m₁, topic, as, s₀, s₁, hp⟩ := psPublish_published hok.names hok.alive h
  obtain rfl : m = m₁ := Option.some.inj (hm.symm.trans hp.get)
  obtain ⟨mt', hmt', rfl⟩ := hp.topic_eq
  obtain rfl : mt = mt' := Option.some.inj (hmt.symm.trans hmt')
  exact ⟨as, s₀, s₁, hp⟩

theorem retained_of_sticky (h : m.sticky = true) : m.retained msg = some msg := if_pos h

/-- The replay of a subscription without the flags that change it. -/
theorem replayed_plain {topicMap : Cells TopicMap} {topic : Str} {flags : PsSubFlags}
    (hno : flags.noSticky = false) (hchild : flags.childSticky = false) :
    replayed topicMap topic flags = (stickyAt topicMap topic).toList := by
  simp [replayed, hno, hchild]

theorem requestedEntry_priority (su : SubId) (t : Str) (pflags : Option PsSubFlags) :
    (requestedEntry su (t, pflags)).priority.toUInt8 = (subFlags t pflags).priority := by
  simp [requestedEntry]

/-- The publish comes first: the subscriber gets the message by the replay. -/
theorem joined_publish_subscribe (hok : s.Ok) (hp : Published s msg n a m (cutFlags t) as s₀ s₁)
    (hsticky : m.sticky = true) (hon : (subFlags t pflags).onEmpty = false)
    (hno : (subFlags t pflags).noSticky = false) (hchild : (subFlags t pflags).childSticky = false)
    (hout : ∀ name, IsAncestor '.' name (cutFlags t) →
      su ∉ (entriesAt s.topicMap name).map SubscriberList.su)
    (h : psSubscribeFlags a su t pflags = some (r, b)) :
    r = 0 ∧ Joined s msg m (cutFlags t) su (requestedEntry su (t, pflags)) b := by
  have hnil : entriesFor su (route s.topicMap m (cutFlags t)) = [] := entriesFor_route_nil hout
  have hentries := (hp.edit hok).entriesAt
  rcases psSubscribeFlags_cases (hp.ok hok) h with ⟨-, hin, -⟩ | ⟨rfl, a₁, ps, hsub⟩
  · rw [hentries] at hin
    exact absurd hin (hout _ (.inl rfl))
  obtain ⟨S, tm, hS, hsubs⟩ := hsub.subscribers
  have hS₁ : a₁.subscribers.get su = some { S with subs := S.subs ++ [tm] } := by
    rw [hsubs, Cells.get_modify_self, hS, Option.map_some]
  -- the publish does not reach the subscriber
  have hS₀ : s.subscribers.get su = some S := by
    have hrec := hp.record su
    rw [hS, hnil] at hrec
    simpa using hrec.symm
  have hreplayed : replayed a₁.topicMap (cutFlags t) (subFlags t pflags) = [msg] := by
    rw [replayed_plain hno hchild, hsub.quiet.sticky, hp.stickyAt hok, Function.update_self,
      retained_of_sticky hsticky]
    rfl
  obtain ⟨ret, rfl, hstep⟩ := hsub.of_singleton hreplayed
  have hentry := requestedEntry_priority su t pflags
  obtain ⟨i, hedit⟩ := hsub.edit
  refine ⟨rfl, fun x => ?_, ?_, ?_, ?_⟩
  · split
    case isTrue hx =>
      have hrec : b.subscribers.get su = PsSubscriber.offered { S with subs := S.subs ++ [tm] }
          msg [requestedEntry su (t, pflags)] :=
        hstep.record hS₁ hon hentry
      rw [hx, hrec, offered_own, hS₀, Option.bind_some]
      rfl
    case isFalse hx =>
      have hkeep : b.subscribers.get x = a.subscribers.get x := by
        rw [hstep.get_other hx, hsubs, Cells.get_modify_of_ne _ _ hx]
      rw [hkeep, hp.record x, map_own_offered]
  · rw [hstep.sameShape.topicMap, hsub.quiet.sticky, hp.stickyAt hok, retained_of_sticky hsticky]
  · rw [hstep.sameShape.topicMap, hedit.entriesAt, hentries]
    rfl
  · obtain ⟨q, evicted, q', hq, hpush, -⟩ := hstep.queues
    have hq₀ : queuesOf s.subscribers su = some q := by
      rw [queuesOf, hS₀]
      rwa [queuesOf, hS₁] at hq
    refine ⟨q, ret, evicted, q', as.map (Attempt.push msg) ++
      [⟨su, cutFlags t, msg, (subFlags t pflags).priority, ret⟩], hq₀, ?_, ?_, ?_⟩
    · rw [hentry]
      exact hpush
    · rw [hstep.pushes, hsub.rest.2.1, hp.log, List.append_assoc]
    · rw [List.filter_append, filter_attempts_nil hp.offers hnil, List.nil_append, hentry]
      simp

/-- A new subscription to a topic that retains nothing is only registered. -/
theorem psSubscribeFlags_plain (hok : s.Ok) (hnone : stickyAt s.topicMap (cutFlags t) = none)
    (hno : (subFlags t pflags).noSticky = false) (hchild : (subFlags t pflags).childSticky = false)
    (hout : su ∉ (entriesAt s.topicMap (cutFlags t)).map SubscriberList.su)
    (h : psSubscribeFlags s su t pflags = some (r, a)) :
    r = 0 ∧ Registered s su (cutFlags t) (subFlags t pflags) a := by
  rcases psSubscribeFlags_cases hok h with ⟨-, hin, -⟩ | ⟨rfl, a₁, ps, hsub⟩
  · exact absurd hin hout
  have hreplayed : replayed a₁.topicMap (cutFlags t) (subFlags t pflags) = [] := by
    rw [replayed_plain hno hchild, hsub.quiet.sticky, hnone]
    rfl
  obtain ⟨rfl, rfl⟩ := hsub.of_nil hreplayed
  exact ⟨rfl, hsub.edit, hsub.subscribers, hsub.quiet, hsub.rest, hsub.callbacks⟩

/-- The subscription comes first: the subscriber gets the message by its new entry. -/
theorem joined_subscribe_publish (hok : s.Ok)
    (hsticky : m.sticky = true) (hnone : stickyAt s.topicMap (cutFlags t) = none)
    (hon : (subFlags t pflags).onEmpty = false) (hno : (subFlags t pflags).noSticky = false)
    (hchild : (subFlags t pflags).childSticky = false)
    (hout : ∀ name, IsAncestor '.' name (cutFlags t) →
      su ∉ (entriesAt s.topicMap name).map SubscriberList.su)
    (h : psSubscribeFlags s su t pflags = some (r, a))
    (hp : Published a msg n b m (cutFlags t) as s₀ s₁) :
    r = 0 ∧ Joined s msg m (cutFlags t) su (requestedEntry su (t, pflags)) b := by
  have hnil : entriesFor su (route s.topicMap m (cutFlags t)) = [] := entriesFor_route_nil hout
  have hoka := (psSubscribeFlags_quiet hok h).1.ok
  obtain ⟨rfl, hreg⟩ := psSubscribeFlags_plain hok hnone hno hchild (hout _ (.inl rfl)) h
  obtain ⟨S, tm, hS, hsubs⟩ := hreg.subscribers
  obtain ⟨i, hedit⟩ := hreg.edit
  obtain ⟨es, fs, hroute, hroute'⟩ := route_insert (m := m) hedit.entriesAt
  have hshare : ∀ x, entriesFor x (route a.topicMap m (cutFlags t)) =
      if x = su then [requestedEntry su (t, pflags)]
      else entriesFor x (route s.topicMap m (cutFlags t)) := by
    intro x
    rw [hroute] at hnil ⊢
    rw [hroute']
    exact entriesFor_insert x rfl hnil
  refine ⟨rfl, fun x => ?_, ?_, ?_, ?_⟩
  · rw [hp.record x, hshare x, hsubs]
    by_cases hx : x = su
    · rw [hx, Cells.get_modify_self, hS, Option.map_some, Option.bind_some, Option.bind_some,
        offered_own]
      rfl
    · rw [Cells.get_modify_of_ne _ _ hx, map_own_offered]
  · rw [hp.stickyAt hoka, hreg.quiet.sticky, retained_of_sticky hsticky]
  · rw [(hp.edit hoka).entriesAt, hedit.entriesAt]
    rfl
  · have hq : queuesOf a.subscribers su = some S.q := by
      rw [hsubs, queuesOf_modify hS, Function.update_self]
    have hoffers := hp.offers
    rw [hroute'] at hoffers
    rw [hroute] at hnil
    have hsu : (requestedEntry su (t, pflags)).su = su := rfl
    obtain ⟨ret, evicted, q', hpush, hfilter⟩ := filter_attempts_insert hoffers hsu hon hnil hq
    refine ⟨S.q, ret, evicted, q', as.map (Attempt.push msg), queuesOf_eq_some.mpr ⟨S, hS, rfl⟩,
      hpush, ?_, hfilter⟩
    rw [hp.log, hreg.rest.2.1]

end Orders

section Exists
variable {s s' : Bus Q} {msg : MsgId} {m : PsMsg} {t : Str} {su : SubId}
  {pflags : Option PsSubFlags} {n : ℕ} {as : List Attempt} {s₀ s₁ : Bus Q} {topic : Str}
  {held : MsgId → ℕ} {k : ℕ}

/-- The reference that the publish uses up, and the rest. -/
theorem held_split (h : 0 < held msg) :
    held = (fun i => held i - ownRef (some msg) i) + ownRef (some msg) := by
  funext i
  simp only [Pi.add_apply, ownRef]
  split
  case isTrue hi =>
    cases hi
    omega
  case isFalse => omega

/-- The room that a publish leaves in the counter of its message. -/
theorem Published.room (h : Published s msg n s' m topic as s₀ s₁) (hok : s.Ok)
    (hr : s.Ready held msg (k + (route s.topicMap m topic).length + 1)) :
    s'.messages.Room msg k ∧ s'.messages.refWrap = false := by
  have hv : ∀ x ∈ m.retained msg, x = msg := fun x hx => by
    simp only [PsMsg.retained, Option.mem_def, Option.ite_none_right_eq_some,
      Option.some.injEq] at hx
    exact hx.2.symm
  have hr₀ := h.stickyStep.ready hok.names hok.alive h.noSpace hv hr
  have hr₁ : s₁.Ready held msg k := by
    apply h.pushes.ready
    · intro p hp
      obtain ⟨a, -, rfl⟩ := List.mem_map.mp hp
      rfl
    · apply hr₀.mono
      have := length_offers_le h.offers
      rw [List.length_map]
      omega
  obtain ⟨ms, hrel, rfl⟩ := h.release
  have hacc := hr₁.refOk
  rw [held_split hr.owned, Bus.RefOk, Bus.account, ← add_assoc] at hacc
  exact psUnrefMsg_room hrel hacc hr₁.noWrap hr₁.room

theorem replayedTopics_plain {topicMap : Cells TopicMap} {flags : PsSubFlags}
    (hno : flags.noSticky = false) (hchild : flags.childSticky = false) :
    replayedTopics topicMap topic flags =
      if (stickyAt topicMap topic).isSome then [topic] else [] := by
  simp [replayedTopics, hno, hchild]

theorem publish_subscribe_exists {mt : Str} {S : PsSubscriber Q} (hok : s.Ok)
    (hm : s.messages.cells.get msg = some m) (hmt : m.topic = some mt)
    (hcut : cutFlags mt = cutFlags t) (hsticky : m.sticky = true)
    (hno : (subFlags t pflags).noSticky = false) (hchild : (subFlags t pflags).childSticky = false)
    (hr : s.Ready held msg ((route s.topicMap m (cutFlags t)).length + 2))
    (hprio : ∀ e ∈ route s.topicMap m (cutFlags t), e.2.priority.toUInt8.toNat < 10)
    (hp : (subFlags t pflags).priority.toNat < 10) (hS : s.subscribers.get su = some S) :
    ∃ n a r b, psPublish s (some msg) = some (n, a) ∧
      psSubscribeFlags a su t pflags = some (r, b) := by
  rw [← hcut] at hr hprio
  obtain ⟨n, a, hpub⟩ := psPublish_exists hok.names hok.alive hm hmt (hr.mono (Nat.le_succ _))
    (hok.offerable hprio)
  obtain ⟨as, s₀, s₁, hpd⟩ := psPublish_published_of hok hm hmt hpub
  have hr₁ : s.Ready held msg (1 + (route s.topicMap m (cutFlags mt)).length + 1) := by
    rw [Nat.add_comm 1]
    exact hr
  obtain ⟨hroom, hw⟩ := hpd.room hok hr₁
  have hacc := hr.refOk
  rw [held_split hr.owned] at hacc
  have hacc := hpd.refOk hok hacc
  have hst := hpd.stickyAt hok
  rw [retained_of_sticky hsticky, hcut] at hst
  have hlive : (a.subscribers.get su).isSome := by
    rw [hpd.sameSubscribers.live, hS]
    rfl
  obtain ⟨N, hN⟩ := Option.isSome_iff_exists.mp hlive
  have hsub : ∃ r b, psSubscribeFlags a su t pflags = some (r, b) := by
    refine psSubscribeFlags_exists (hpd.ok hok) hacc hw hN hp fun u hu i hi => ?_
    have htopics : replayedTopics a.topicMap (cutFlags t) (subFlags t pflags) = [cutFlags t] := by
      rw [replayedTopics_plain hno hchild, hst, Function.update_self]
      rfl
    rw [htopics] at hu ⊢
    rw [List.mem_singleton.mp hu, hst, Function.update_self] at hi
    cases hi
    obtain ⟨hrefs, hsome⟩ := hacc hw msg
    have hat : stickyAt a.topicMap (cutFlags t) = some msg := by
      rw [hst, Function.update_self]
    have hpos := stickies_pos hat
    have hget : (a.messages.cells.get msg).isSome := by
      apply hsome.mpr
      simp only [Bus.account, Pi.add_apply]
      omega
    obtain ⟨k, hk⟩ := Option.isSome_iff_exists.mp hget
    have hkroom := hroom k hk
    rw [Messages.refs_of_get hk] at hrefs
    rw [← hrefs]
    exact hkroom
  obtain ⟨r, b, hsub⟩ := hsub
  exact ⟨n, a, r, b, hpub, hsub⟩

theorem subscribe_publish_exists {mt : Str} {S : PsSubscriber Q} (hok : s.Ok)
    (hm : s.messages.cells.get msg = some m) (hmt : m.topic = some mt)
    (hcut : cutFlags mt = cutFlags t) (hnone : stickyAt s.topicMap (cutFlags t) = none)
    (hno : (subFlags t pflags).noSticky = false) (hchild : (subFlags t pflags).childSticky = false)
    (hout : su ∉ (entriesAt s.topicMap (cutFlags t)).map SubscriberList.su)
    (hr : s.Ready held msg ((route s.topicMap m (cutFlags t)).length + 2))
    (hprio : ∀ e ∈ route s.topicMap m (cutFlags t), e.2.priority.toUInt8.toNat < 10)
    (hp : (subFlags t pflags).priority.toNat < 10) (hS : s.subscribers.get su = some S) :
    ∃ r a n b, psSubscribeFlags s su t pflags = some (r, a) ∧
      psPublish a (some msg) = some (n, b) := by
  have hex : ∃ r a, psSubscribeFlags s su t pflags = some (r, a) := by
    refine psSubscribeFlags_exists hok hr.refOk hr.noWrap hS hp fun u hu i hi => ?_
    rw [replayedTopics_plain hno hchild, hnone] at hu
    simp at hu
  obtain ⟨r, a, hsub⟩ := hex
  obtain ⟨-, hreg⟩ := psSubscribeFlags_plain hok hnone hno hchild hout hsub
  have hoka := hreg.quiet.ok
  obtain ⟨i, hedit⟩ := hreg.edit
  obtain ⟨es, fs, hroute, hroute'⟩ := route_insert (m := m) hedit.entriesAt
  have hready : a.Ready held msg ((route a.topicMap m (cutFlags t)).length + 1) := by
    refine ⟨hreg.quiet.refOk held hr.refOk, by rw [hreg.rest.1]; exact hr.noWrap, hr.owned, ?_⟩
    rw [hreg.rest.1]
    apply hr.room.mono
    rw [hroute, hroute', List.length_append, List.length_append, List.length_cons]
    omega
  have hoffer : ∀ e ∈ route a.topicMap m (cutFlags t), e.2.priority.toUInt8.toNat < 10 := by
    intro e he
    rw [hroute'] at he
    rw [hroute] at hprio
    rcases List.mem_append.mp he with he | he
    · exact hprio e (List.mem_append_left _ he)
    · rcases List.mem_cons.mp he with rfl | he
      · simpa using hp
      · exact hprio e (List.mem_append_right _ he)
  rw [← hcut] at hready hoffer
  have hma : a.messages.cells.get msg = some m := by rw [hreg.rest.1, hm]
  obtain ⟨n, b, hpub⟩ := psPublish_exists hoka.names hoka.alive hma hmt hready
    (hoka.offerable hoffer)
  exact ⟨r, a, n, b, hsub, hpub⟩

end Exists

/-- In every reachable state whose topic of `msg`, a sticky message, retains nothing,
and for every subscriber without an entry on its route: a publish and then a
subscription come to the same as the subscription and then the publish. The
subscriber is offered the message once in either order, with the same answer. Both
orders can be taken by a client that holds the message, if the counter has room. -/
theorem start_order {h : List Label} {s : Bus Q} (hr : Bus.init.Reaches h s) {msg : MsgId} {m : PsMsg}
    {mt t : Str} {su : SubId} {pflags : Option PsSubFlags}
    (hm : s.messages.cells.get msg = some m) (hmt : m.topic = some mt)
    (hcut : cutFlags mt = cutFlags t) (hsticky : m.sticky = true)
    (hnone : stickyAt s.topicMap (cutFlags t) = none)
    (hout : ∀ name, IsAncestor '.' name (cutFlags t) →
      su ∉ (entriesAt s.topicMap name).map SubscriberList.su)
    (hon : (subFlags t pflags).onEmpty = false) (hno : (subFlags t pflags).noSticky = false)
    (hchild : (subFlags t pflags).childSticky = false) :
    (∀ n a r b r' a' n' b', psPublish s (some msg) = some (n, a) →
      psSubscribeFlags a su t pflags = some (r, b) →
      psSubscribeFlags s su t pflags = some (r', a') → psPublish a' (some msg) = some (n', b') →
      r = 0 ∧ r' = 0 ∧ queuesOf b.subscribers = queuesOf b'.subscribers ∧
      (∀ x, psWaiting b x = psWaiting b' x ∧
        (psOverflow b x).map Prod.fst = (psOverflow b' x).map Prod.fst) ∧
      stickyAt b.topicMap = stickyAt b'.topicMap ∧ entriesAt b.topicMap = entriesAt b'.topicMap ∧
      ∃ ret ps ps', b.pushes = s.pushes ++ ps ∧ b'.pushes = s.pushes ++ ps' ∧
        ps.filter (fun p => p.su = su) =
          [⟨su, cutFlags t, msg, (subFlags t pflags).priority, ret⟩] ∧
        ps'.filter (fun p => p.su = su) =
          [⟨su, cutFlags t, msg, (subFlags t pflags).priority, ret⟩]) ∧
    (∀ h' (c : Client Q), Client.start.Reaches h' c → c.bus = s → s.messages.refWrap = false →
      0 < c.held msg → m.ref.toNat + (route s.topicMap m (cutFlags t)).length + 2 < 2 ^ 32 →
      (∀ e ∈ route s.topicMap m (cutFlags t), e.2.priority.toUInt8.toNat < 10) →
      (subFlags t pflags).priority.toNat < 10 → (s.subscribers.get su).isSome →
      ∃ n a r b r' a' n' b', psPublish s (some msg) = some (n, a) ∧
        psSubscribeFlags a su t pflags = some (r, b) ∧
        psSubscribeFlags s su t pflags = some (r', a') ∧
        psPublish a' (some msg) = some (n', b')) := by
  have hok := hr.ok
  constructor
  · intro n a r b r' a' n' b' hpub hsub hsub' hpub'
    obtain ⟨as, s₀, s₁, hp⟩ := psPublish_published_of hok hm hmt hpub
    rw [hcut] at hp
    obtain ⟨hr₁, hj⟩ := joined_publish_subscribe hok hp hsticky hon hno hchild hout hsub
    obtain ⟨-, hreg⟩ := psSubscribeFlags_plain hok hnone hno hchild (hout _ (.inl rfl)) hsub'
    have hoka := hreg.quiet.ok
    have hma : a'.messages.cells.get msg = some m := by rw [hreg.rest.1, hm]
    obtain ⟨as', s₀', s₁', hp'⟩ := psPublish_published_of hoka hma hmt hpub'
    rw [hcut] at hp'
    obtain ⟨hr₂, hj'⟩ :=
      joined_subscribe_publish hok hsticky hnone hon hno hchild hout hsub' hp'
    have hown : ∀ x, (b.subscribers.get x).map PsSubscriber.own =
        (b'.subscribers.get x).map PsSubscriber.own := fun x =>
      (hj.record x).trans (hj'.record x).symm
    refine ⟨hr₁, hr₂, ?_, fun x => ⟨?_, ?_⟩, hj.sticky.trans hj'.sticky.symm,
      hj.entries.trans hj'.entries.symm, ?_⟩
    · funext x
      rw [queuesOf_eq_own, queuesOf_eq_own, hown]
    · rw [psWaiting_eq_own, psWaiting_eq_own, hown]
    · rw [psOverflow_eq_own, psOverflow_eq_own, hown]
    · obtain ⟨q, ret, evicted, q₁, ps, hq, hpush, happ, hfilter⟩ := hj.offered
      obtain ⟨q', ret', evicted', q₁', ps', hq', hpush', happ', hfilter'⟩ := hj'.offered
      obtain rfl : q = q' := Option.some.inj (hq.symm.trans hq')
      rw [hpush] at hpush'
      cases hpush'
      rw [requestedEntry_priority] at hfilter hfilter'
      exact ⟨ret, ps, ps', happ, happ', hfilter, hfilter'⟩
  · rintro h' c hc rfl hw hheld hroom hprio hp hlive
    have ha := hc.accounted
    obtain ⟨S, hS⟩ := Option.isSome_iff_exists.mp hlive
    have hready : c.bus.Ready c.held msg ((route c.bus.topicMap m (cutFlags t)).length + 2) := by
      refine ⟨ha.refOk, hw, hheld, fun m' hm' => ?_⟩
      rw [hm] at hm'
      cases hm'
      omega
    obtain ⟨n, a, r, b, hpub, hsub⟩ := publish_subscribe_exists hok hm hmt hcut hsticky hno hchild
      hready hprio hp hS
    obtain ⟨r', a', n', b', hsub', hpub'⟩ := subscribe_publish_exists hok hm hmt hcut hnone hno
      hchild (hout _ (.inl rfl)) hready hprio hp hS
    exact ⟨n, a, r, b, r', a', n', b', hpub, hsub, hsub', hpub'⟩

/-- The queue of the new subscriber is full and evicts; another one has an entry on the
parent topic. -/
theorem start_order_full : ∃ (c : Client Bucket.Queue) (n : ℕ) (a : Bus Bucket.Queue) (r : ℤ)
    (b : Bus Bucket.Queue) (r' : ℤ) (a' : Bus Bucket.Queue) (n' : ℕ) (b' : Bus Bucket.Queue),
    psPublish c.bus (some 1) = some (n, a) ∧
    psSubscribeFlags a 1 "a.b p5".toList none = some (r, b) ∧
    psSubscribeFlags c.bus 1 "a.b p5".toList none = some (r', a') ∧
    psPublish a' (some 1) = some (n', b') ∧ r = 0 ∧ r' = 0 ∧
    queuesOf b.subscribers = queuesOf b'.subscribers ∧
    stickyAt b.topicMap = stickyAt b'.topicMap ∧ entriesAt b.topicMap = entriesAt b'.topicMap := by
  have hcalls : ((exec (Client.step (Q := Bucket.Queue)) [.newSubscriber 1 (some ["a e".toList]),
      .newSubscriber 1 (some ["x p1".toList]), .newMsg (some "x".toList) 0x800 .nil,
      .publish (some 0), .newMsg (some "a.b".toList) 0x801 .nil] Client.start).bind fun (_, c) =>
        (c.bus.messages.cells.get 1).map fun m =>
          (m.topic, m.sticky && !c.bus.messages.refWrap && c.held 1 = 1 && m.ref = 1 &&
            (c.bus.subscribers.get 1).isSome && stickyAt c.bus.topicMap "a.b".toList = none &&
            (ancestors '.' "a.b".toList).all (fun name =>
              1 ∉ (entriesAt c.bus.topicMap name).map SubscriberList.su) &&
            route c.bus.topicMap m "a.b".toList = [("a".toList, ⟨0, false, true, 0⟩)])) =
      some (some "a.b".toList, true) := by
    decide +kernel
  obtain ⟨⟨rs, c⟩, hexec, hlast⟩ := Option.bind_eq_some_iff.mp hcalls
  obtain ⟨m, hm, hfacts⟩ := Option.map_eq_some_iff.mp hlast
  have hr : Client.start.Reaches _ c := run_of_exec hexec
  simp only [Prod.mk.injEq, Bool.and_eq_true, decide_eq_true_eq, Bool.not_eq_true',
    List.all_eq_true] at hfacts
  obtain ⟨hmt, ⟨⟨⟨⟨⟨⟨hsticky, hw⟩, hheld⟩, href⟩, hlive⟩, hnone⟩, hout⟩, hroute⟩ := hfacts
  have hcut : cutFlags "a.b p5".toList = "a.b".toList := by decide
  have hfree : ∀ name, IsAncestor '.' name (cutFlags "a.b p5".toList) →
      1 ∉ (entriesAt c.bus.topicMap name).map SubscriberList.su := by
    intro name hname
    rw [hcut] at hname
    exact hout name ((mem_ancestors '.').mpr hname)
  have hon : (subFlags "a.b p5".toList none).onEmpty = false := by decide
  have hboth := start_order hr.bus hm hmt (by decide) hsticky (by rw [hcut]; exact hnone) hfree hon
    (by decide) (by decide)
  rw [hcut, hroute] at hboth
  obtain ⟨n, a, r, b, r', a', n', b', hpub, hsub, hsub', hpub'⟩ := hboth.2 _ c hr rfl hw
    (by rw [hheld]; decide) (by rw [href]; decide) (by decide) (by decide) hlive
  obtain ⟨hr₁, hr₂, hqueues, -, hst, hentries, -⟩ :=
    hboth.1 n a r b r' a' n' b' hpub hsub hsub' hpub'
  exact ⟨c, n, a, r, b, r', a', n', b', hpub, hsub, hsub', hpub', hr₁, hr₂, hqueues, hst, hentries⟩

end PubSub
