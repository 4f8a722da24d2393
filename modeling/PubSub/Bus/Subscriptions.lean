import PubSub.Bus.Links
import PubSub.Bus.Reading
import PubSub.Bus.Subscribe

/-! What the calls on subscriptions do. Each keeps the invariant of the tables,
leaves the sticky messages alone and moves no reference. -/

namespace PubSub

open Lib

variable {Q : Type → Type} [PsQueue Q] [LawfulPsQueue Q]

namespace Bus

/-- The invariant of the tables: of the topics, of the two-way lists and of the
counter of messages. -/
structure Ok (s : Bus Q) : Prop where
  names : Names s.topicMap
  alive : NoDeadTopic s.topicMap
  links : Links (entriesOf s.topicMap) (subsOf s.subscribers)
  statOk : s.messages.StatOk

/-- A step that keeps the invariant, the sticky messages and the account. -/
structure Quiet (s s' : Bus Q) : Prop where
  ok : s'.Ok
  sticky : stickyAt s'.topicMap = stickyAt s.topicMap
  refOk : ∀ held, s.RefOk held → s'.RefOk held
  content : s.messages.SameContent s'.messages
  uuidCtr : s'.uuidCtr = s.uuidCtr

/-- A step that neither makes nor frees a subscriber. -/
structure SameSubscribers (s s' : Bus Q) : Prop where
  next : s'.subscribers.next = s.subscribers.next
  live : ∀ su, (s'.subscribers.get su).isSome = (s.subscribers.get su).isSome
  size : s'.subscribers.size = s.subscribers.size
  stat : s'.statLiveSubscribers = s.statLiveSubscribers

theorem Quiet.refl {s : Bus Q} (h : s.Ok) : Quiet s s := ⟨h, rfl, fun _ => id, .refl _, rfl⟩

theorem Quiet.trans {a b c : Bus Q} (h₁ : Quiet a b) (h₂ : Quiet b c) : Quiet a c where
  ok := h₂.ok
  sticky := h₂.sticky.trans h₁.sticky
  refOk held h := h₂.refOk held (h₁.refOk held h)
  content := h₁.content.trans h₂.content
  uuidCtr := h₂.uuidCtr.trans h₁.uuidCtr

theorem SameSubscribers.refl (s : Bus Q) : SameSubscribers s s := ⟨rfl, fun _ => rfl, rfl, rfl⟩

theorem SameSubscribers.trans {a b c : Bus Q} (h₁ : SameSubscribers a b)
    (h₂ : SameSubscribers b c) : SameSubscribers a c where
  next := h₂.next.trans h₁.next
  live su := (h₂.live su).trans (h₁.live su)
  size := h₂.size.trans h₁.size
  stat := h₂.stat.trans h₁.stat

theorem Ok.of_sameShape {s s' : Bus Q} (h : s.Ok) (hs : s.SameShape s')
    (hstat : s'.messages.StatOk) : s'.Ok := by
  refine ⟨?_, ?_, ?_, hstat⟩
  · rw [hs.topicMap]
    exact h.names
  · rw [hs.topicMap]
    exact h.alive
  · rw [hs.topicMap, hs.subsOf]
    exact h.links

theorem Quiet.of_sameShape {s s' : Bus Q} (h : s.Ok) (hs : s.SameShape s')
    (hstat : s'.messages.StatOk) (hr : ∀ held, s.RefOk held → s'.RefOk held) : Quiet s s' :=
  ⟨h.of_sameShape hs hstat, by rw [hs.topicMap], hr, hs.content, hs.uuidCtr⟩

theorem sameSubscribers_modify {c : Cells (PsSubscriber Q)} (su : SubId)
    (f : PsSubscriber Q → PsSubscriber Q) (x : SubId) :
    ((c.modify su f).get x).isSome = (c.get x).isSome := by
  rw [Cells.get_modify]
  split
  · rw [Option.isSome_map]
  · rfl

theorem Pushes.quiet {s s' : Bus Q} {ps : List Push} (hok : s.Ok) (h : s.Pushes ps s') :
    Quiet s s' :=
  .of_sameShape hok h.sameShape (h.statOk hok.statOk) fun _ hr => h.refOk hr

theorem Pushes.sameSubscribers {s s' : Bus Q} {ps : List Push} (h : s.Pushes ps s') :
    SameSubscribers s s' := by
  refine h.invariant (P := SameSubscribers s) (.refl s) fun t p u ht hp => ht.trans ?_
  obtain ⟨S, evicted, q, ms₁, ms₂, ms₃, -, -, -, -, -, rfl⟩ := hp
  exact ⟨rfl, sameSubscribers_modify _ _, Cells.size_modify _ _ _, rfl⟩

/-- An edit of a topic's entries and of a subscriber's list that fit together. -/
theorem Quiet.of_entriesEdit {s s' : Bus Q} {tm : TopicId} {name : Str} {sls : List SubscriberList}
    {su : SubId} {S N : PsSubscriber Q} (hok : s.Ok)
    (he : EntriesEdit s.topicMap s'.topicMap tm name sls)
    (hS : s.subscribers.get su = some S) (hq : N.q = S.q)
    (hsubs : s'.subscribers = s.subscribers.modify su fun _ => N)
    (hlinks : Links (entriesOf s'.topicMap) (subsOf s'.subscribers))
    (hms : s'.messages = s.messages) (huuid : s'.uuidCtr = s.uuidCtr) : Quiet s s' := by
  refine ⟨⟨he.names, he.alive, hlinks, hms ▸ hok.statOk⟩, he.stickyAt, fun held hr => ?_,
    hms ▸ .refl _, huuid⟩
  have haccount : s'.account held = s.account held := by
    funext i
    have hslots := slotsOf_modify hS N i
    rw [hq] at hslots
    simp only [account, hsubs, he.stickies, Pi.add_apply]
    omega
  rw [RefOk, haccount, hms]
  exact hr

end Bus

open Bus

/-! ### Who is listed -/

section Listed
variable {s : Bus Q} {su : SubId} {name : Str} {sl : SubscriberList}

/-- The entries of a subscriber are those of one that lives. -/
theorem live_of_entry (hok : s.Ok) (h : sl ∈ entriesAt s.topicMap name) :
    (s.subscribers.get sl.su).isSome := by
  obtain ⟨tm, htm⟩ := exists_entriesOf h
  have hlive := hok.links.live tm sl htm
  rwa [subsOf, Option.isSome_map] at hlive

/-- Nothing lists a subscriber that does not live. -/
theorem not_listed_of_dead (hok : s.Ok) (hdead : s.subscribers.get su = none) :
    su ∉ (entriesAt s.topicMap name).map SubscriberList.su := by
  intro h
  obtain ⟨sl, hsl, rfl⟩ := List.mem_map.mp h
  have hlive := live_of_entry hok hsl
  rw [hdead] at hlive
  cases hlive

end Listed

/-! ### `ps_subscribe_flags` -/

/-- What a push asks for; the answer is the queue's. -/
def Push.request (p : Push) : SubId × Str × MsgId × UInt8 := (p.su, p.via, p.msg, p.priority)

/-- The sticky messages of the topics `pre` and below, oldest topic first. -/
def childStickies (topicMap : Cells TopicMap) (pre : Str) (tms : List TopicId) : List MsgId :=
  tms.filterMap fun tm => (topicMap.get tm).bind fun t =>
    if inSubtree pre t.topic then t.sticky else none

/-- The messages that a new subscription is sent. -/
def replayed (topicMap : Cells TopicMap) (topic : Str) (flags : PsSubFlags) : List MsgId :=
  if flags.noSticky then []
  else if flags.childSticky then childStickies topicMap topic topicMap.ids
  else (stickyAt topicMap topic).toList

section Subscribe
variable {s s' : Bus Q} {su : SubId} {topicOrig : Str} {pflags : Option PsSubFlags} {r : ℤ}

theorem childLoop_pushes {via pre : Str} {priority : UInt8} {tms : List TopicId}
    (h : tms.foldlM (pushIfChildSticky su via pre priority) s = some s') :
    ∃ ps, s.Pushes ps s' ∧ ps.map Push.request =
      (childStickies s.topicMap pre tms).map fun msg => (su, via, msg, priority) := by
  induction tms generalizing s with
  | nil =>
    cases h
    exact ⟨[], .nil, rfl⟩
  | cons tm tms ih =>
    rw [List.foldlM_cons] at h
    obtain ⟨s₁, h₁, hrest⟩ := Option.bind_eq_some_iff.mp h
    obtain ⟨ps, hps, hreq⟩ := ih hrest
    obtain ⟨t, ht, h₁⟩ := Option.bind_eq_some_iff.mp h₁
    have hquiet : ∀ o, (if inSubtree pre t.topic then t.sticky else none) = o →
        childStickies s.topicMap pre (tm :: tms) =
          o.toList ++ childStickies s.topicMap pre tms := by
      rintro o rfl
      simp only [childStickies, List.filterMap_cons, ht, Option.bind_some]
      cases (if inSubtree pre t.topic then t.sticky else none) <;> rfl
    split at h₁
    case isFalse hin =>
      cases h₁
      exact ⟨ps, hps, by rw [hreq, hquiet none (if_neg hin)]; rfl⟩
    case isTrue hin =>
      cases hst : t.sticky with
      | none =>
        rw [hst] at h₁
        cases h₁
        exact ⟨ps, hps, by rw [hreq, hquiet none (by rw [if_pos hin, hst])]; rfl⟩
      | some msg =>
        rw [hst] at h₁
        obtain ⟨⟨r, s₂⟩, hpush, heq⟩ := Option.bind_eq_some_iff.mp h₁
        cases heq
        obtain ⟨ret, -, hstep⟩ := pushSubscriberQueue_iff.mp hpush
        refine ⟨⟨su, via, msg, priority, ret⟩ :: ps, hps.cons hstep, ?_⟩
        rw [hquiet (some msg) (by rw [if_pos hin, hst]), List.map_cons, hreq,
          hstep.sameShape.topicMap]
        rfl

/-- The topic that a subscription finds or makes. -/
theorem fetchTopicCreate_spec {topicMap T₀ : Cells TopicMap} {topic : Str} {tm : TopicId}
    (hn : Names topicMap) (ha : NoDeadTopic topicMap) (hs : ' ' ∉ topic)
    (h : fetchTopicCreateIfNotExist topicMap topic = (tm, T₀)) :
    ∃ t, T₀.get tm = some t ∧ t.subscribers = entriesAt topicMap topic ∧
      t.sticky = stickyAt topicMap topic ∧ entriesOf topicMap tm = entriesAt topicMap topic ∧
      (entriesAt topicMap topic ≠ [] → T₀ = topicMap) ∧
      ∀ sl, EntriesEdit topicMap
        (T₀.modify tm fun _ => { t with subscribers := t.subscribers ++ [sl] }) tm topic
        (entriesAt topicMap topic ++ [sl]) := by
  rw [fetchTopicCreateIfNotExist] at h
  cases hf : fetchTopic topicMap topic with
  | some tm' =>
    rw [hf] at h
    cases h
    obtain ⟨t, ht, rfl⟩ := fetchTopic_some hf
    have hat := topicAt_of_fetch hf ht
    refine ⟨t, ht, by rw [entriesAt, hat]; rfl, by rw [stickyAt, hat]; rfl, ?_, fun _ => rfl, ?_⟩
    · rw [entriesOf, ht, entriesAt, hat]
    · intro sl
      have he := entriesEdit_set hn ha ht rfl (t.subscribers ++ [sl])
      rw [TopicMap.unlessDead, if_neg (by simp [TopicMap.Dead]), ← Cells.modify_eq_set ht fun _ => _]
        at he
      rwa [entriesAt, hat]
  | none =>
    rw [hf] at h
    obtain rfl : topicMap.next = tm := congrArg Prod.fst h
    obtain rfl : (createTopic topicMap topic).2 = T₀ := congrArg Prod.snd h
    have hat := topicAt_eq_none.mpr hf
    have hentries : entriesAt topicMap topic = [] := by rw [entriesAt, hat]; rfl
    have hget : (createTopic topicMap topic).2.get topicMap.next = some ⟨topic, [], none⟩ :=
      Cells.get_alloc_self topicMap ⟨topic, [], none⟩
    refine ⟨⟨topic, [], none⟩, hget, hentries.symm, by rw [stickyAt, hat]; rfl, ?_, ?_, ?_⟩
    · rw [entriesOf, Cells.get_next, hentries]
      rfl
    · intro hne
      exact absurd hentries hne
    · intro sl
      rw [hentries, Cells.modify_eq_set hget]
      exact entriesEdit_create hn ha hf hs sl

/-- What a subscription that succeeds does: one entry at the end of the topic's
list, the topic at the end of the subscriber's, and the pushes of the replay. -/
structure Subscribed (s : Bus Q) (su : SubId) (topic : Str) (flags : PsSubFlags) (s' : Bus Q)
    (s₁ : Bus Q) (ps : List Push) : Prop where
  fresh : su ∉ (entriesAt s.topicMap topic).map SubscriberList.su
  edit : ∃ tm, EntriesEdit s.topicMap s₁.topicMap tm topic (entriesAt s.topicMap topic ++
    [⟨su, flags.hidden, flags.onEmpty, flags.priority.toInt8⟩])
  subscribers : ∃ S tm, s.subscribers.get su = some S ∧
    s₁.subscribers = s.subscribers.modify su fun _ => { S with subs := S.subs ++ [tm] }
  quiet : Quiet s s₁
  rest : s₁.messages = s.messages ∧ s₁.pushes = s.pushes ∧
    s₁.statLiveSubscribers = s.statLiveSubscribers
  callbacks : s₁.callbacks = s.callbacks
  pushes : s₁.Pushes ps s'
  requests : ps.map Push.request =
    (replayed s₁.topicMap topic flags).map fun msg => (su, topic, msg, flags.priority)

/-- The pushes of a subscription, once it is in both lists. -/
def pushReplayed (s : Bus Q) (su : SubId) (topic : Str) (flags : PsSubFlags) : Option (Bus Q) :=
  if flags.noSticky then some s
  else if flags.childSticky then pushChildSticky s su topic flags.priority
  else
    match stickyAt s.topicMap topic with
    | none => some s
    | some msg => (pushSubscriberQueue s su topic msg flags.priority).map Prod.snd

theorem pushReplayed_pushes {topic : Str} {flags : PsSubFlags} (h : pushReplayed s su topic flags = some s') :
    ∃ ps, s.Pushes ps s' ∧ ps.map Push.request =
      (replayed s.topicMap topic flags).map fun msg => (su, topic, msg, flags.priority) := by
  rw [pushReplayed] at h
  rw [replayed]
  split at h
  case isTrue hno =>
    cases h
    rw [if_pos hno]
    exact ⟨[], .nil, rfl⟩
  case isFalse hno =>
    rw [if_neg hno]
    split at h
    case isTrue hchild =>
      rw [if_pos hchild]
      exact childLoop_pushes h
    case isFalse hchild =>
      rw [if_neg hchild]
      split at h
      case h_1 hnone =>
        cases h
        rw [hnone]
        exact ⟨[], .nil, rfl⟩
      case h_2 msg hsome =>
        obtain ⟨⟨a, s₂⟩, hpush, heq⟩ := Option.map_eq_some_iff.mp h
        cases heq
        obtain ⟨ret, -, hstep⟩ := pushSubscriberQueue_iff.mp hpush
        rw [hsome]
        exact ⟨_, Run.single hstep, rfl⟩

/-- What a subscription of a live subscriber does before the replay. -/
structure Registered (s : Bus Q) (su : SubId) (topic : Str) (flags : PsSubFlags) (s₁ : Bus Q) :
    Prop where
  edit : ∃ tm, EntriesEdit s.topicMap s₁.topicMap tm topic (entriesAt s.topicMap topic ++
    [⟨su, flags.hidden, flags.onEmpty, flags.priority.toInt8⟩])
  subscribers : ∃ S tm, s.subscribers.get su = some S ∧
    s₁.subscribers = s.subscribers.modify su fun _ => { S with subs := S.subs ++ [tm] }
  quiet : Quiet s s₁
  rest : s₁.messages = s.messages ∧ s₁.pushes = s.pushes ∧
    s₁.statLiveSubscribers = s.statLiveSubscribers
  callbacks : s₁.callbacks = s.callbacks

/-- A subscription that is not there yet: both lists get their entry, then the replay. -/
theorem psSubscribeFlags_fresh {S : PsSubscriber Q} (hok : s.Ok)
    (hS : s.subscribers.get su = some S) (pflags : Option PsSubFlags)
    (hfresh : su ∉ (entriesAt s.topicMap (cutFlags topicOrig)).map SubscriberList.su) :
    ∃ s₁, Registered s su (cutFlags topicOrig) (subFlags topicOrig pflags) s₁ ∧
      psSubscribeFlags s su topicOrig pflags =
        (pushReplayed s₁ su (cutFlags topicOrig) (subFlags topicOrig pflags)).map fun s' => (0, s') := by
  have hprio : (subFlags topicOrig pflags).priority.toInt8.toUInt8 =
      (subFlags topicOrig pflags).priority := by simp
  simp only [psSubscribeFlags, Option.bind_eq_bind, hprio]
  generalize hT : fetchTopicCreateIfNotExist s.topicMap (cutFlags topicOrig) = T
  obtain ⟨tm, T₀⟩ := T
  obtain ⟨t, ht, hentries, hsticky, hof, -, hedit⟩ :=
    fetchTopicCreate_spec hok.names hok.alive (not_mem_cutFlags topicOrig) hT
  let sl : SubscriberList := ⟨su, (subFlags topicOrig pflags).hidden,
    (subFlags topicOrig pflags).onEmpty, (subFlags topicOrig pflags).priority.toInt8⟩
  let s₁ : Bus Q := { s with
    topicMap := T₀.modify tm fun _ => { t with subscribers := t.subscribers ++ [sl] }
    subscribers := s.subscribers.modify su fun _ => { S with subs := S.subs ++ [tm] } }
  have he := hedit sl
  have hlinks : Links (entriesOf s₁.topicMap) (subsOf s₁.subscribers) := by
    rw [he.entriesOf, subsOf_modify hS, ← hof]
    exact hok.links.add (subsOf_of_get hS) rfl (by rw [hof]; exact hfresh)
  have hquiet : Quiet s s₁ := .of_entriesEdit (N := { S with subs := S.subs ++ [tm] })
    hok he hS rfl rfl hlinks rfl rfl
  refine ⟨s₁, ⟨⟨tm, he⟩, ⟨S, tm, hS, rfl⟩, hquiet, ⟨rfl, rfl, rfl⟩, rfl⟩, ?_⟩
  rw [← hentries, mem_map_su] at hfresh
  have hst : stickyAt s₁.topicMap (cutFlags topicOrig) = t.sticky := by
    rw [hsticky, he.stickyAt]
  simp only [ht, Option.bind_some]
  rw [if_neg hfresh]
  simp only [Bus.modifyTopic, hS, Option.bind_some]
  change (if (subFlags topicOrig pflags).noSticky then some ((0 : ℤ), s₁)
    else if (subFlags topicOrig pflags).childSticky then
      (pushChildSticky s₁ su (cutFlags topicOrig) (subFlags topicOrig pflags).priority).bind
        fun s => some (0, s)
    else match t.sticky with
      | none => some (0, s₁)
      | some msg => (pushSubscriberQueue s₁ su (cutFlags topicOrig) msg
          (subFlags topicOrig pflags).priority).bind fun r => some (0, r.2)) = _
  rw [pushReplayed, hst]
  split
  case isTrue => rfl
  case isFalse =>
    split
    case isTrue => rw [Option.map_eq_bind, Function.comp_def]
    case isFalse =>
      cases t.sticky with
      | none => rfl
      | some msg =>
        dsimp only
        rw [Option.map_map, Option.map_eq_bind]
        rfl

/-- A topic that lists the subscriber exists, so nothing is created for it. -/
theorem psSubscribeFlags_listed (hok : s.Ok) (pflags : Option PsSubFlags)
    (h : su ∈ (entriesAt s.topicMap (cutFlags topicOrig)).map SubscriberList.su) :
    psSubscribeFlags s su topicOrig pflags = some (-1, s) := by
  simp only [psSubscribeFlags, Option.bind_eq_bind]
  generalize hT : fetchTopicCreateIfNotExist s.topicMap (cutFlags topicOrig) = T
  obtain ⟨tm, T₀⟩ := T
  obtain ⟨t, ht, hentries, -, -, hkeep, -⟩ :=
    fetchTopicCreate_spec hok.names hok.alive (not_mem_cutFlags topicOrig) hT
  have hT₀ : T₀ = s.topicMap := hkeep fun hnil => by rw [hnil] at h; cases h
  simp only [ht, Option.bind_some]
  rw [← hentries] at h
  rw [if_pos (mem_map_su.mp h), hT₀]

/-- A new subscription is one of a live subscriber. -/
theorem psSubscribeFlags_live (hok : s.Ok)
    (hfresh : su ∉ (entriesAt s.topicMap (cutFlags topicOrig)).map SubscriberList.su)
    (h : psSubscribeFlags s su topicOrig pflags = some (r, s')) :
    ∃ S, s.subscribers.get su = some S := by
  simp only [psSubscribeFlags, Option.bind_eq_bind] at h
  generalize hT : fetchTopicCreateIfNotExist s.topicMap (cutFlags topicOrig) = T at h
  obtain ⟨tm, T₀⟩ := T
  obtain ⟨t, ht, hentries, -⟩ :=
    fetchTopicCreate_spec hok.names hok.alive (not_mem_cutFlags topicOrig) hT
  rw [← hentries, mem_map_su] at hfresh
  simp only [ht, Option.bind_some] at h
  rw [if_neg hfresh] at h
  obtain ⟨S, hS, -⟩ := Option.bind_eq_some_iff.mp h
  exact ⟨S, hS⟩

theorem psSubscribeFlags_cases (hok : s.Ok)
    (h : psSubscribeFlags s su topicOrig pflags = some (r, s')) :
    (r = -1 ∧ su ∈ (entriesAt s.topicMap (cutFlags topicOrig)).map SubscriberList.su ∧ s' = s) ∨
    (r = 0 ∧ ∃ s₁ ps,
      Subscribed s su (cutFlags topicOrig) (subFlags topicOrig pflags) s' s₁ ps) := by
  by_cases hin : su ∈ (entriesAt s.topicMap (cutFlags topicOrig)).map SubscriberList.su
  · rw [psSubscribeFlags_listed hok pflags hin] at h
    cases h
    exact .inl ⟨rfl, hin, rfl⟩
  · obtain ⟨S, hS⟩ := psSubscribeFlags_live hok hin h
    obtain ⟨s₁, hreg, heq⟩ := psSubscribeFlags_fresh hok hS pflags hin
    rw [heq] at h
    obtain ⟨s₂, hreplay, heq⟩ := Option.map_eq_some_iff.mp h
    cases heq
    obtain ⟨ps, hps, hreq⟩ := pushReplayed_pushes hreplay
    exact .inr ⟨rfl, s₁, ps, hin, hreg.edit, hreg.subscribers, hreg.quiet, hreg.rest,
      hreg.callbacks, hps, hreq⟩

theorem psSubscribeFlags_quiet (hok : s.Ok)
    (h : psSubscribeFlags s su topicOrig pflags = some (r, s')) :
    Quiet s s' ∧ SameSubscribers s s' := by
  rcases psSubscribeFlags_cases hok h with ⟨-, -, rfl⟩ | ⟨-, s₁, ps, hsub⟩
  · exact ⟨.refl hok, .refl _⟩
  · refine ⟨hsub.quiet.trans (hsub.pushes.quiet hsub.quiet.ok), ?_⟩
    obtain ⟨S, tm, -, hsubs⟩ := hsub.subscribers
    have hfirst : SameSubscribers s s₁ := by
      refine ⟨?_, fun x => ?_, ?_, hsub.rest.2.2⟩ <;> rw [hsubs]
      · rfl
      · exact sameSubscribers_modify _ _ x
      · exact Cells.size_modify _ _ _
    exact hfirst.trans hsub.pushes.sameSubscribers

end Subscribe

/-! ### `ps_unsubscribe` and `ps_unsubscribe_all` -/

section Unsubscribe
variable {s s' : Bus Q} {su : SubId} {tm : TopicId} {t : TopicMap} {r : ℤ}

theorem removeSubscriber_eq (ht : s.topicMap.get tm = some t) : removeSubscriber s su tm t =
    some { s with
      topicMap := s.topicMap.set tm
        (TopicMap.unlessDead { t with subscribers := without su t.subscribers }) } := by
  rw [removeSubscriber, freeTopicIfEmpty_modify ht]
  rfl

theorem psUnsubscribe_cases {otopic : Str} (hok : s.Ok) (h : psUnsubscribe s su otopic = some (r, s')) :
    (r = -1 ∧ su ∉ (entriesAt s.topicMap (cutFlags otopic)).map SubscriberList.su ∧ s' = s) ∨
    (r = 0 ∧ su ∈ (entriesAt s.topicMap (cutFlags otopic)).map SubscriberList.su ∧
      ∃ S tm, s.subscribers.get su = some S ∧ tm ∈ S.subs ∧
        s'.subscribers = s.subscribers.modify su (fun _ => { S with subs := S.subs.erase tm }) ∧
        EntriesEdit s.topicMap s'.topicMap tm (cutFlags otopic)
          (without su (entriesAt s.topicMap (cutFlags otopic))) ∧
        s' = { s with topicMap := s'.topicMap, subscribers := s'.subscribers } ∧ Quiet s s') := by
  simp only [psUnsubscribe, Option.bind_eq_bind] at h
  cases hf : fetchTopic s.topicMap (cutFlags otopic) with
  | none =>
    rw [hf] at h
    cases h
    refine .inl ⟨rfl, ?_, rfl⟩
    rw [entriesAt, topicAt_eq_none.mpr hf]
    simp
  | some tm =>
    obtain ⟨t, ht, hname⟩ := fetchTopic_some hf
    have hat := topicAt_of_fetch hf ht
    have hentries : entriesAt s.topicMap (cutFlags otopic) = t.subscribers := by
      rw [entriesAt, hat]
      rfl
    rw [hentries]
    simp only [hf, ht, Option.bind_some] at h
    split at h
    case isFalse hin =>
      cases h
      exact .inl ⟨rfl, fun hmem => hin (mem_map_su.mp hmem), rfl⟩
    case isTrue hin =>
      rw [removeSubscriber_eq ht, Option.bind_some] at h
      obtain ⟨S, hS, heq⟩ := Option.bind_eq_some_iff.mp h
      cases heq
      have hS' : s.subscribers.get su = some S := hS
      have he := entriesEdit_set hok.names hok.alive ht hname (without su t.subscribers)
      have hmem := mem_map_su.mpr hin
      have hof : entriesOf s.topicMap tm = t.subscribers := by rw [entriesOf, ht]; rfl
      have htm := (hok.links.mem_iff su S.subs (subsOf_of_get hS') tm).mpr (hof ▸ hmem)
      refine .inr ⟨rfl, hmem, S, tm, hS', htm, rfl, he, rfl,
        .of_entriesEdit (N := { S with subs := S.subs.erase tm }) hok he hS' rfl rfl ?_ rfl rfl⟩
      have hd := hok.links.subsNodup su S.subs (subsOf_of_get hS')
      simp only [Bus.modifySubscriber]
      rw [he.entriesOf, subsOf_modify hS']
      refine hok.links.remove (subsOf_of_get hS') (hd.erase tm) (fun i hi => List.mem_of_mem_erase hi)
        fun i => ?_
      rw [Function.update_apply]
      by_cases hi : i = tm
      · rw [if_pos hi, if_neg fun h => (hd.mem_erase_iff.mp h).1 hi, hi, hof]
      · rw [if_neg hi]
        split
        case isTrue => rfl
        case isFalse hnot =>
          rw [without_eq_self]
          intro hmem
          exact hnot (hd.mem_erase_iff.mpr
            ⟨hi, (hok.links.mem_iff su S.subs (subsOf_of_get hS') i).mpr hmem⟩)

/-- The subscriber of an entry lives, so the call returns. -/
theorem psUnsubscribe_exists (hok : s.Ok) (su : SubId) (otopic : Str) :
    ∃ r s', psUnsubscribe s su otopic = some (r, s') := by
  simp only [psUnsubscribe, Option.bind_eq_bind]
  cases hf : fetchTopic s.topicMap (cutFlags otopic) with
  | none => exact ⟨-1, s, rfl⟩
  | some tm =>
    obtain ⟨t, ht, -⟩ := fetchTopic_some hf
    simp only [ht, Option.bind_some]
    split
    case isFalse => exact ⟨-1, s, rfl⟩
    case isTrue hin =>
      obtain ⟨sl, hsl, rfl⟩ := List.mem_map.mp (mem_map_su.mpr hin)
      have hof : entriesOf s.topicMap tm = t.subscribers := by rw [entriesOf, ht]; rfl
      have hlive := hok.links.live tm sl (hof ▸ hsl)
      rw [subsOf, Option.isSome_map] at hlive
      obtain ⟨S, hS⟩ := Option.isSome_iff_exists.mp hlive
      simp only [removeSubscriber_eq ht, Option.bind_some, hS]
      exact ⟨0, _, rfl⟩

theorem psUnsubscribe_quiet {otopic : Str} (hok : s.Ok) (h : psUnsubscribe s su otopic = some (r, s')) :
    Quiet s s' ∧ SameSubscribers s s' := by
  rcases psUnsubscribe_cases hok h with ⟨-, -, rfl⟩ | ⟨-, -, S, tm, -, -, hsubs, -, heq, hq⟩
  · exact ⟨.refl hok, .refl _⟩
  · refine ⟨hq, ⟨?_, fun x => ?_, ?_, by rw [heq]⟩⟩ <;> rw [hsubs]
    · rfl
    · exact sameSubscribers_modify _ _ x
    · exact Cells.size_modify _ _ _

/-- A round of `ps_unsubscribe_all` edits the topic also when there is nothing to
remove. -/
theorem unsubscribeFrom_eq (ha : NoDeadTopic s.topicMap) (ht : s.topicMap.get tm = some t) :
    unsubscribeFrom su s tm = some { s with
      topicMap := s.topicMap.set tm
        (TopicMap.unlessDead { t with subscribers := without su t.subscribers }) } := by
  simp only [unsubscribeFrom, ht, Option.bind_eq_bind, Option.bind_some]
  split
  case isTrue => exact removeSubscriber_eq ht
  case isFalse hin =>
    rw [without_eq_self (fun hmem => hin (mem_map_su.mp hmem)), TopicMap.unlessDead,
      if_neg (ha tm t ht), Cells.set_self ht]

/-- The loop of `ps_unsubscribe_all` takes the subscriber's entries out of the
topics `tms`. -/
theorem unsubscribeLoop {tms : List TopicId} (hn : Names s.topicMap) (ha : NoDeadTopic s.topicMap)
    (h : tms.foldlM (unsubscribeFrom su) s = some s') :
    ∃ T, s' = { s with topicMap := T } ∧ Names T ∧ NoDeadTopic T ∧
      stickyAt T = stickyAt s.topicMap ∧ stickies T = stickies s.topicMap ∧
      (∀ name, others su (entriesAt T name) = others su (entriesAt s.topicMap name)) ∧
      (∀ i, i ∉ tms → entriesOf T i = entriesOf s.topicMap i) ∧
      (tms.Nodup → ∀ i ∈ tms, entriesOf T i = without su (entriesOf s.topicMap i)) := by
  induction tms generalizing s with
  | nil =>
    cases h
    exact ⟨_, rfl, hn, ha, rfl, rfl, fun _ => rfl, fun _ _ => rfl, fun _ i hi => nomatch hi⟩
  | cons tm tms ih =>
    rw [List.foldlM_cons] at h
    obtain ⟨s₁, h₁, hrest⟩ := Option.bind_eq_some_iff.mp h
    obtain ⟨t, ht, -⟩ := Option.bind_eq_some_iff.mp h₁
    rw [unsubscribeFrom_eq ha ht] at h₁
    obtain rfl := Option.some.inj h₁
    have he := entriesEdit_set hn ha ht rfl (without su t.subscribers)
    have hof : entriesOf s.topicMap tm = t.subscribers := by rw [entriesOf, ht]; rfl
    obtain ⟨T, rfl, hn', ha', hst, hstk, hsub, hother, hin⟩ := ih he.names he.alive hrest
    refine ⟨T, rfl, hn', ha', hst.trans he.stickyAt, hstk.trans he.stickies, fun name => ?_,
      fun i hi => ?_, fun hd i hi => ?_⟩
    · rw [hsub, he.entriesAt, Function.update_apply]
      split
      case isTrue hname =>
        rw [hname, others_without, entriesAt, topicAt_topic hn ht]
        rfl
      case isFalse => rfl
    · rw [List.mem_cons, not_or] at hi
      rw [hother i hi.2, he.entriesOf, Function.update_of_ne hi.1]
    · obtain ⟨htm, hd⟩ := List.nodup_cons.mp hd
      rcases List.mem_cons.mp hi with rfl | htail
      · rw [hother i htm, he.entriesOf, Function.update_self, hof]
      · have hne : i ≠ tm := by
          rintro rfl
          exact htm htail
        rw [hin hd i htail, he.entriesOf, Function.update_of_ne hne]

/-- The loop finds every topic: what it does to one leaves the others in the table. -/
theorem unsubscribeLoop_exists {tms : List TopicId} (ha : NoDeadTopic s.topicMap) (hd : tms.Nodup)
    (hlive : ∀ tm ∈ tms, (s.topicMap.get tm).isSome) (hn : Names s.topicMap) :
    ∃ s', tms.foldlM (unsubscribeFrom su) s = some s' := by
  induction tms generalizing s with
  | nil => exact ⟨s, rfl⟩
  | cons tm tms ih =>
    obtain ⟨htm, hd⟩ := List.nodup_cons.mp hd
    obtain ⟨t, ht⟩ := Option.isSome_iff_exists.mp (hlive tm List.mem_cons_self)
    have he := entriesEdit_set hn ha ht rfl (without su t.subscribers)
    rw [List.foldlM_cons, unsubscribeFrom_eq ha ht, Option.bind_eq_bind, Option.bind_some]
    refine ih he.alive hd (fun i hi => ?_) he.names
    have hne : i ≠ tm := by
      rintro rfl
      exact htm hi
    rw [Cells.get_set ht, if_neg hne]
    exact hlive i (List.mem_cons_of_mem _ hi)

/-- `ps_unsubscribe_all` returns the length of the subscriber's list and empties it. -/
theorem psUnsubscribeAll_eq_some {n : ℕ} (hok : s.Ok) (h : psUnsubscribeAll s su = some (n, s')) :
    ∃ S T, s.subscribers.get su = some S ∧ n = S.subs.length ∧
      s' = { s with
        topicMap := T, subscribers := s.subscribers.modify su fun S => { S with subs := [] } } ∧
      (∀ i, entriesOf T i = without su (entriesOf s.topicMap i)) ∧
      (∀ name, entriesAt T name = others su (entriesAt s.topicMap name)) ∧ Quiet s s' := by
  simp only [psUnsubscribeAll, Option.bind_eq_bind, Option.bind_eq_some_iff] at h
  obtain ⟨S, hS, s₁, hloop, heq⟩ := h
  cases heq
  obtain ⟨T, rfl, hn, ha, hst, hstk, hsub, hother, hin⟩ := unsubscribeLoop hok.names hok.alive hloop
  have hd := hok.links.subsNodup su S.subs (subsOf_of_get hS)
  have hmem := hok.links.mem_iff su S.subs (subsOf_of_get hS)
  have hentries : ∀ i, entriesOf T i = without su (entriesOf s.topicMap i) := by
    intro i
    by_cases hi : i ∈ S.subs
    · exact hin hd i hi
    · rw [hother i hi, without_eq_self fun h => hi ((hmem i).mpr h)]
  have hat : ∀ name, entriesAt T name = others su (entriesAt s.topicMap name) := by
    intro name
    rw [← hsub, others_eq_self]
    intro hname
    obtain ⟨sl, hsl, rfl⟩ := List.mem_map.mp hname
    obtain ⟨tm, htm⟩ := exists_entriesOf hsl
    rw [hentries] at htm
    have hlisted := List.mem_map_of_mem (f := SubscriberList.su) htm
    exact ((mem_map_without (hok.links.entriesNodup tm)).mp hlisted).1 rfl
  have hmod : s.subscribers.modify su (fun S => { S with subs := [] }) =
      s.subscribers.modify su fun _ => { S with subs := [] } := by
    rw [Cells.modify_eq_set hS, Cells.modify_eq_set hS]
  refine ⟨S, T, hS, rfl, rfl, hentries, hat, ⟨hn, ha, ?_, hok.statOk⟩, hst, fun held hr => ?_,
    .refl _, rfl⟩
  · simp only [Bus.modifySubscriber]
    rw [hmod, subsOf_modify hS]
    refine hok.links.remove (subsOf_of_get hS) List.nodup_nil (by simp) fun i => ?_
    rw [if_neg (by simp), hentries]
  · have haccount : Bus.account { s with
        topicMap := T, subscribers := s.subscribers.modify su fun S => { S with subs := [] } } held =
        s.account held := by
      funext i
      have hslots := slotsOf_modify hS { S with subs := [] } i
      simp only [Bus.account, hmod, hstk, Pi.add_apply] at hslots ⊢
      omega
    rw [Bus.RefOk, Bus.modifySubscriber, haccount]
    exact hr

theorem psUnsubscribeAll_exists {S : PsSubscriber Q} (hok : s.Ok) (hS : s.subscribers.get su = some S) :
    ∃ s', psUnsubscribeAll s su = some (S.subs.length, s') := by
  have hlive : ∀ tm ∈ S.subs, (s.topicMap.get tm).isSome := by
    intro tm htm
    have hne := hok.links.ne_nil_of_mem (subsOf_of_get hS) htm
    rw [entriesOf] at hne
    cases hget : s.topicMap.get tm with
    | none =>
      rw [hget] at hne
      exact absurd rfl hne
    | some t => rfl
  have hnodup := hok.links.subsNodup su S.subs (subsOf_of_get hS)
  obtain ⟨s₁, hloop⟩ : ∃ s₁, S.subs.foldlM (unsubscribeFrom su) s = some s₁ :=
    unsubscribeLoop_exists hok.alive hnodup hlive hok.names
  refine ⟨s₁.modifySubscriber su fun S => { S with subs := [] }, ?_⟩
  simp only [psUnsubscribeAll, hS, hloop, Option.bind_eq_bind, Option.bind_some]

end Unsubscribe

end PubSub
