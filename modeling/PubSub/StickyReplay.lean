import PubSub.Bus.Api
import PubSub.Queue.Bucket

/-! The replay of sticky messages to a new subscription: which topics it takes them
from, and that it takes one from each. -/

namespace PubSub

open Lib Bus

variable {Q : Type → Type} [PsQueue Q] [LawfulPsQueue Q]

/-- The name of the topic at `tm`, if it retains a message and is `pre` or below. -/
def childTopic (topicMap : Cells TopicMap) (pre : Str) (tm : TopicId) : Option Str :=
  (topicMap.get tm).bind fun t =>
    if inSubtree pre t.topic && t.sticky.isSome then some t.topic else none

/-- The topics whose messages a new subscription is sent. -/
def replayedTopics (topicMap : Cells TopicMap) (topic : Str) (flags : PsSubFlags) : List Str :=
  if flags.noSticky then []
  else if flags.childSticky then topicMap.ids.filterMap (childTopic topicMap topic)
  else if (stickyAt topicMap topic).isSome then [topic] else []

section Topics
variable {topicMap : Cells TopicMap} {pre topic u : Str} {tm : TopicId} {flags : PsSubFlags}

theorem childTopic_eq_some : childTopic topicMap pre tm = some u ↔
    ∃ t, topicMap.get tm = some t ∧ t.topic = u ∧ IsAncestor '.' pre u ∧ t.sticky.isSome := by
  simp only [childTopic, Option.bind_eq_some_iff, Option.ite_none_right_eq_some, Bool.and_eq_true,
    Option.some.injEq, inSubtree_iff]
  constructor
  · rintro ⟨t, ht, ⟨hanc, hst⟩, rfl⟩
    exact ⟨t, ht, rfl, hanc, hst⟩
  · rintro ⟨t, ht, rfl, hanc, hst⟩
    exact ⟨t, ht, ⟨hanc, hst⟩, rfl⟩

theorem stickyAt_isSome (hn : Names topicMap) : (stickyAt topicMap u).isSome ↔
    ∃ tm t, topicMap.get tm = some t ∧ t.topic = u ∧ t.sticky.isSome := by
  constructor
  · intro h
    obtain ⟨msg, hmsg⟩ := Option.isSome_iff_exists.mp h
    obtain ⟨t, ht, hst⟩ := Option.bind_eq_some_iff.mp hmsg
    obtain ⟨tm, htm, hname⟩ := (topicAt_eq_some hn).mp ht
    exact ⟨tm, t, htm, hname, by rw [hst]; rfl⟩
  · rintro ⟨tm, t, ht, rfl, hst⟩
    rw [stickyAt, topicAt_topic hn ht]
    exact hst

theorem mem_replayedTopics (hn : Names topicMap) : u ∈ replayedTopics topicMap topic flags ↔
    (stickyAt topicMap u).isSome ∧ flags.noSticky = false ∧
      if flags.childSticky then IsAncestor '.' topic u else u = topic := by
  unfold replayedTopics
  split
  case isTrue hno => simp [hno]
  case isFalse hno =>
    rw [Bool.not_eq_true] at hno
    split
    case isTrue =>
      simp only [List.mem_filterMap, Cells.mem_ids, childTopic_eq_some, stickyAt_isSome hn, hno,
        true_and]
      constructor
      · rintro ⟨tm, -, t, ht, hname, hanc, hst⟩
        exact ⟨⟨tm, t, ht, hname, hst⟩, hanc⟩
      · rintro ⟨⟨tm, t, ht, hname, hst⟩, hanc⟩
        exact ⟨tm, by rw [ht]; rfl, t, ht, hname, hanc, hst⟩
    case isFalse =>
      split
      case isTrue hst =>
        rw [List.mem_singleton]
        constructor
        · rintro rfl
          exact ⟨hst, hno, rfl⟩
        · rintro ⟨-, -, hu⟩
          exact hu
      case isFalse hst =>
        constructor
        · intro hu
          cases hu
        · rintro ⟨hu, -, rfl⟩
          exact absurd hu hst

/-- The hash table has each name once. -/
theorem nodup_replayedTopics (hn : Names topicMap) : (replayedTopics topicMap topic flags).Nodup := by
  unfold replayedTopics
  split
  case isTrue => exact List.nodup_nil
  case isFalse =>
    split
    case isTrue =>
      apply (Cells.ids_nodup topicMap).filterMap
      intro i j name hi hj
      obtain ⟨a, ha, hna, -⟩ := childTopic_eq_some.mp hi
      obtain ⟨b, hb, hnb, -⟩ := childTopic_eq_some.mp hj
      exact hn.unique i j a b ha hb (hna.trans hnb.symm)
    case isFalse =>
      split
      · exact List.nodup_singleton topic
      · exact List.nodup_nil

/-- Tables with the same sticky messages replay from the same topics. -/
theorem replayedTopics_perm {topicMap' : Cells TopicMap} (hn : Names topicMap)
    (hn' : Names topicMap') (h : stickyAt topicMap' = stickyAt topicMap) :
    (replayedTopics topicMap' topic flags).Perm (replayedTopics topicMap topic flags) := by
  rw [List.perm_ext_iff_of_nodup (nodup_replayedTopics hn') (nodup_replayedTopics hn)]
  intro u
  rw [mem_replayedTopics hn', mem_replayedTopics hn, h]

theorem childStickies_topics (hn : Names topicMap) (tms : List TopicId) :
    (childStickies topicMap pre tms).map some =
      (tms.filterMap (childTopic topicMap pre)).map (stickyAt topicMap) := by
  induction tms with
  | nil => rfl
  | cons tm tms ih =>
    simp only [childStickies] at ih
    simp only [childStickies, List.filterMap_cons, childTopic]
    cases ht : topicMap.get tm with
    | none => exact ih
    | some t =>
      have hat : stickyAt topicMap t.topic = t.sticky := by
        rw [stickyAt, topicAt_topic hn ht, Option.bind_some]
      simp only [Option.bind_some]
      cases hin : inSubtree pre t.topic with
      | false => exact ih
      | true =>
        cases hst : t.sticky with
        | none => exact ih
        | some msg =>
          simp only [↓reduceIte, Bool.and_self, Option.isSome_some, List.map_cons, hat, hst]
          rw [ih]

/-- The messages of the replay are those of the topics, one from each. -/
theorem replayed_topics (hn : Names topicMap) : (replayed topicMap topic flags).map some =
    (replayedTopics topicMap topic flags).map (stickyAt topicMap) := by
  unfold replayed replayedTopics
  split
  case isTrue => rfl
  case isFalse =>
    split
    case isTrue => exact childStickies_topics hn topicMap.ids
    case isFalse => cases hst : stickyAt topicMap topic <;> simp [hst]

theorem length_replayed (hn : Names topicMap) :
    (replayed topicMap topic flags).length = (replayedTopics topicMap topic flags).length := by
  have hmap : (replayed topicMap topic flags).map some = _ := replayed_topics hn
  have hlen := congrArg List.length hmap
  simpa only [List.length_map] using hlen

end Topics

section Exists
variable {s : Bus Q} {su : SubId} {held : MsgId → ℕ} {priority : UInt8}

/-- A push of a sticky message returns, and takes room from the messages of the rest. -/
theorem push_sticky_exists {topic : Str} {msg : MsgId} {k : ℕ} {rest : List MsgId}
    (hr : s.RefOk held) (hw : s.messages.refWrap = false) (hst : stickyAt s.topicMap topic = some msg)
    (hsu : (subsOf s.subscribers su).isSome) (hp : priority.toNat < 10) (via : Str)
    (hroom : ∀ i ∈ msg :: rest, s.account held i + (k + 1) < 2 ^ 32) :
    ∃ a s', pushSubscriberQueue s su via msg priority = some (a, s') ∧ s.SameShape s' ∧
      s'.RefOk held ∧ s'.messages.refWrap = false ∧
      ∀ i ∈ rest, s'.account held i + k < 2 ^ 32 := by
  have hpos : 0 < s.account held msg := by
    have := stickies_pos hst
    simp only [Bus.account, Pi.add_apply]
    omega
  have hmsg := hroom msg List.mem_cons_self
  obtain ⟨ret, s', hstep, hw'⟩ := PushStep.exists_of_live via hr hw hpos (by omega) hsu hp
  refine ⟨_, s', pushSubscriberQueue_iff.mpr ⟨ret, rfl, hstep⟩, hstep.sameShape, hstep.refOk hr, hw',
    fun i hi => ?_⟩
  have hi := hroom i (List.mem_cons_of_mem _ hi)
  have hle : s'.account held i ≤ _ := hstep.account_le i
  have hone : ownRef (some msg) i ≤ 1 := by
    rw [ownRef]
    split <;> omega
  dsimp only at hle
  omega

theorem childLoop_exists {via pre : Str} {tms : List TopicId} (hn : Names s.topicMap)
    (hr : s.RefOk held) (hw : s.messages.refWrap = false) (hsu : (subsOf s.subscribers su).isSome)
    (hp : priority.toNat < 10) (hlive : ∀ tm ∈ tms, (s.topicMap.get tm).isSome)
    (hroom : ∀ i ∈ childStickies s.topicMap pre tms,
      s.account held i + (childStickies s.topicMap pre tms).length < 2 ^ 32) :
    ∃ s', tms.foldlM (pushIfChildSticky su via pre priority) s = some s' := by
  induction tms generalizing s with
  | nil => exact ⟨s, rfl⟩
  | cons tm tms ih =>
    obtain ⟨t, ht⟩ := Option.isSome_iff_exists.mp (hlive tm List.mem_cons_self)
    have hrest : ∀ i ∈ tms, (s.topicMap.get i).isSome := fun i hi =>
      hlive i (List.mem_cons_of_mem _ hi)
    rw [List.foldlM_cons, pushIfChildSticky, ht, Option.bind_eq_bind, Option.bind_eq_bind,
      Option.bind_some]
    simp only [childStickies, List.filterMap_cons, ht, Option.bind_some] at hroom
    split at hroom
    case h_1 hnone =>
      have hskip : ∃ s', tms.foldlM (pushIfChildSticky su via pre priority) s = some s' :=
        ih hn hr hw hsu hrest hroom
      split
      case isFalse => exact hskip
      case isTrue hin =>
        rw [if_pos hin] at hnone
        rw [hnone]
        exact hskip
    case h_2 msg hsome =>
      obtain ⟨hin, hst⟩ : inSubtree pre t.topic = true ∧ t.sticky = some msg := by
        simpa using hsome
      have hat : stickyAt s.topicMap t.topic = some msg := by
        rw [stickyAt, topicAt_topic hn ht, Option.bind_some, hst]
      obtain ⟨a, s₁, hpush, hshape, hr₁, hw₁, hroom₁⟩ :=
        push_sticky_exists hr hw hat hsu hp via hroom
      rw [if_pos hin, hst]
      dsimp only
      rw [hpush, Option.bind_eq_bind, Option.bind_some, Option.bind_some]
      apply ih
      · rw [hshape.topicMap]
        exact hn
      · exact hr₁
      · exact hw₁
      · rw [hshape.subsOf]
        exact hsu
      · rw [hshape.topicMap]
        exact hrest
      · rw [hshape.topicMap]
        exact hroom₁

/-- A subscription of a live subscriber returns, when its priority is an index of the
bucket array and the counters of the replayed messages have room. -/
theorem psSubscribeFlags_exists {t : Str} {pflags : Option PsSubFlags} {S : PsSubscriber Q}
    (hok : s.Ok) (hr : s.RefOk held) (hw : s.messages.refWrap = false)
    (hS : s.subscribers.get su = some S) (hp : (subFlags t pflags).priority.toNat < 10)
    (hroom : ∀ u ∈ replayedTopics s.topicMap (cutFlags t) (subFlags t pflags), ∀ i,
      stickyAt s.topicMap u = some i → s.account held i +
        (replayedTopics s.topicMap (cutFlags t) (subFlags t pflags)).length < 2 ^ 32) :
    ∃ r s', psSubscribeFlags s su t pflags = some (r, s') := by
  by_cases hin : su ∈ (entriesAt s.topicMap (cutFlags t)).map SubscriberList.su
  · exact ⟨-1, s, psSubscribeFlags_listed hok pflags hin⟩
  obtain ⟨s₁, hreg, heq⟩ := psSubscribeFlags_fresh hok hS pflags hin
  have hn := hreg.quiet.ok.names
  obtain ⟨S', tm, hS', hsubs⟩ := hreg.subscribers
  obtain ⟨i, he⟩ := hreg.edit
  have hr₁ := hreg.quiet.refOk held hr
  have hw₁ : s₁.messages.refWrap = false := by rw [hreg.rest.1, hw]
  have hsu : (subsOf s₁.subscribers su).isSome := by
    rw [hsubs, subsOf_modify hS', Function.update_self]
    rfl
  have haccount : s₁.account held = s.account held := by
    funext j
    have hslots := slotsOf_modify hS' { S' with subs := S'.subs ++ [tm] } j
    simp only [Bus.account, hsubs, he.stickies, Pi.add_apply] at hslots ⊢
    omega
  -- the same topics are replayed from, before and after the topic is created
  have hperm : (replayedTopics s₁.topicMap (cutFlags t) (subFlags t pflags)).Perm
      (replayedTopics s.topicMap (cutFlags t) (subFlags t pflags)) :=
    replayedTopics_perm hok.names hn hreg.quiet.sticky
  have hroom₁ : ∀ j ∈ replayed s₁.topicMap (cutFlags t) (subFlags t pflags), s₁.account held j +
      (replayed s₁.topicMap (cutFlags t) (subFlags t pflags)).length < 2 ^ 32 := by
    intro j hj
    have hmap : (replayed s₁.topicMap (cutFlags t) (subFlags t pflags)).map some = _ :=
      replayed_topics hn
    have hlen : (replayed s₁.topicMap (cutFlags t) (subFlags t pflags)).length = _ :=
      length_replayed hn
    have hmem : some j ∈ (replayedTopics s₁.topicMap (cutFlags t) (subFlags t pflags)).map
        (stickyAt s₁.topicMap) := by
      rw [← hmap]
      exact List.mem_map_of_mem hj
    obtain ⟨u, hu, hst⟩ := List.mem_map.mp hmem
    rw [hreg.quiet.sticky] at hst
    rw [haccount, hlen, hperm.length_eq]
    exact hroom u (hperm.mem_iff.mp hu) j hst
  have hreplay : ∃ s', pushReplayed s₁ su (cutFlags t) (subFlags t pflags) = some s' := by
    rw [pushReplayed]
    rw [replayed] at hroom₁
    split
    case isTrue => exact ⟨s₁, rfl⟩
    case isFalse hno =>
      rw [if_neg hno] at hroom₁
      split
      case isTrue hchild =>
        rw [if_pos hchild] at hroom₁
        exact childLoop_exists hn hr₁ hw₁ hsu hp (fun tm htm => Cells.mem_ids.mp htm) hroom₁
      case isFalse hchild =>
        rw [if_neg hchild] at hroom₁
        split
        case h_1 => exact ⟨s₁, rfl⟩
        case h_2 msg hst =>
          rw [hst] at hroom₁
          have hroom₂ : ∀ j ∈ [msg], s₁.account held j + (0 + 1) < 2 ^ 32 := hroom₁
          obtain ⟨a, s₂, hpush, -⟩ := push_sticky_exists hr₁ hw₁ hst hsu hp (cutFlags t) hroom₂
          rw [hpush]
          exact ⟨s₂, rfl⟩
  obtain ⟨s', hreplay⟩ := hreplay
  rw [heq, hreplay]
  exact ⟨0, s', rfl⟩

end Exists

/-- What a new subscription of `su` to `topic` pushes: the sticky messages that `flags` ask
for, those of the topics `us`, to `su` alone. -/
structure Replayed (s : Bus Q) (su : SubId) (topic : Str) (flags : PsSubFlags) (us : List Str)
    (ps : List Push) (s' : Bus Q) : Prop where
  nodup : us.Nodup
  mem : ∀ u, u ∈ us ↔ (stickyAt s.topicMap u).isSome ∧ flags.noSticky = false ∧
    if flags.childSticky then topic = [] ∨ u = topic ∨ topic ++ ['.'] <+: u else u = topic
  pushes : s'.pushes = s.pushes ++ ps
  msgs : ps.map (fun p => some p.msg) = us.map (stickyAt s.topicMap)
  made : ∀ p ∈ ps, p.su = su ∧ p.via = topic ∧ p.priority = flags.priority
  queue : ∃ q q', queuesOf s.subscribers su = some q ∧ queuesOf s'.subscribers su = some q' ∧
    q.Takes ps q'
  others : ∀ x, x ≠ su → queuesOf s'.subscribers x = queuesOf s.subscribers x

section Replay
variable {s s' s₁ : Bus Q} {su : SubId} {topic t : Str} {flags : PsSubFlags} {ps : List Push}

/-- The list of topics of a subscriber is no part of its queue. -/
theorem Subscribed.queuesOf (h : Subscribed s su topic flags s' s₁ ps) :
    queuesOf s₁.subscribers = queuesOf s.subscribers := by
  obtain ⟨S, tm, hS, hsubs⟩ := h.subscribers
  rw [hsubs, queuesOf_modify hS, ← queuesOf_eq_some.mpr ⟨S, hS, rfl⟩, Function.update_eq_self]

theorem Subscribed.replays (h : Subscribed s su topic flags s' s₁ ps) :
    Replayed s su topic flags (replayedTopics s₁.topicMap topic flags) ps s' := by
  have hn : Names s₁.topicMap := h.quiet.ok.names
  have hmade : ∀ p ∈ ps, p.su = su ∧ p.via = topic ∧ p.priority = flags.priority := by
    intro p hp
    have hreq : p.request ∈ ps.map Push.request := List.mem_map_of_mem hp
    rw [h.requests] at hreq
    obtain ⟨msg, -, heq⟩ := List.mem_map.mp hreq
    simp only [Push.request, Prod.mk.injEq] at heq
    exact ⟨heq.1.symm, heq.2.1.symm, heq.2.2.2.symm⟩
  refine ⟨nodup_replayedTopics hn, fun u => ?_, ?_, ?_, hmade, ?_, fun x hx => ?_⟩
  · rw [mem_replayedTopics hn, h.quiet.sticky]
    refine and_congr_right fun _ => and_congr_right fun _ => ?_
    split
    · rw [IsAncestor]
      constructor
      · rintro (h | h | h)
        · exact .inr (.inl h.symm)
        · exact .inl h
        · exact .inr (.inr h)
      · rintro (h | h | h)
        · exact .inr (.inl h)
        · exact .inl h.symm
        · exact .inr (.inr h)
    · exact Iff.rfl
  · rw [h.pushes.pushes, h.rest.2.1]
  · rw [← h.quiet.sticky, ← replayed_topics hn]
    have hmsgs := congrArg (List.map fun r => some r.2.2.1) h.requests
    rw [List.map_map, List.map_map] at hmsgs
    exact hmsgs
  · obtain ⟨S, tm, hS, -⟩ := h.subscribers
    have hq : PubSub.queuesOf s.subscribers su = some S.q := queuesOf_eq_some.mpr ⟨S, hS, rfl⟩
    obtain ⟨q', hq', htakes⟩ := h.pushes.takes (fun p hp => (hmade p hp).1) (by rw [h.queuesOf, hq])
    exact ⟨S.q, q', hq, hq', htakes⟩
  · rw [h.pushes.queuesOf_other fun p hp => by rw [(hmade p hp).1]; exact hx.symm, h.queuesOf]

theorem psSubscribeFlags_replayed {pflags : Option PsSubFlags} (hok : s.Ok)
    (h : psSubscribeFlags s su t pflags = some (0, s')) :
    ∃ us ps, Replayed s su (cutFlags t) (subFlags t pflags) us ps s' := by
  rcases psSubscribeFlags_cases hok h with ⟨h, -⟩ | ⟨-, s₁, ps, hsub⟩
  · cases h
  · exact ⟨_, ps, hsub.replays⟩

end Replay

/-- A subscription that succeeds pushes to its subscriber, and to no other, the sticky
messages that its flags ask for: of each topic once, with the subscription's priority.
The subscriber's queue takes these pushes and nothing else. -/
theorem sticky_replay {h : List Label} {s s' : Bus Q} {su : SubId} {t : Str}
    {pflags : Option PsSubFlags} (hr : Bus.init.Reaches h s)
    (hs : psSubscribeFlags s su t pflags = some (0, s')) :
    ∃ (us : List Str) (ps : List Push),
      us.Nodup ∧
      (∀ u, u ∈ us ↔ (stickyAt s.topicMap u).isSome ∧ (subFlags t pflags).noSticky = false ∧
        if (subFlags t pflags).childSticky then
          cutFlags t = [] ∨ u = cutFlags t ∨ cutFlags t ++ ['.'] <+: u
        else u = cutFlags t) ∧
      s'.pushes = s.pushes ++ ps ∧
      ps.map (fun p => some p.msg) = us.map (stickyAt s.topicMap) ∧
      (∀ p ∈ ps, p.su = su ∧ p.via = cutFlags t ∧ p.priority = (subFlags t pflags).priority) ∧
      (∃ q q', queuesOf s.subscribers su = some q ∧ queuesOf s'.subscribers su = some q' ∧
        q.Takes ps q') ∧
      (∀ x, x ≠ su → queuesOf s'.subscribers x = queuesOf s.subscribers x) ∧
      stickyAt s'.topicMap = stickyAt s.topicMap ∧ s.messages.SameContent s'.messages := by
  have hquiet := (psSubscribeFlags_quiet hr.ok hs).1
  obtain ⟨us, ps, hrep⟩ := psSubscribeFlags_replayed hr.ok hs
  exact ⟨us, ps, hrep.nodup, hrep.mem, hrep.pushes, hrep.msgs, hrep.made, hrep.queue, hrep.others,
    hquiet.sticky, hquiet.content⟩

/-- Sticky messages on `foo`, below it, and on `foobar`, which only starts with the
same letters. -/
theorem sticky_replay_siblings : ∃ (h : List Label) (s s' : Bus Bucket.Queue),
    Bus.init.Reaches h s ∧ psSubscribeFlags s 0 "foo Sp3".toList none = some (0, s') ∧
    s'.pushes = [⟨0, "foo".toList, 1, 3, .ok⟩, ⟨0, "foo".toList, 2, 3, .ok⟩] ∧
    ∃ (us : List Str) (ps : List Push), us.Nodup ∧ s'.pushes = s.pushes ++ ps ∧
      ps.map (fun p => some p.msg) = us.map (stickyAt s.topicMap) ∧
      ∀ u, u ∈ us ↔ (stickyAt s.topicMap u).isSome ∧
        ("foo".toList = [] ∨ u = "foo".toList ∨ "foo.".toList <+: u) := by
  have hcalls : ((exec (step (Q := Bucket.Queue)) [.newMsg (some "foobar".toList) 0x801 .nil,
      .publish (some 0), .newMsg (some "foo.bar".toList) 0x801 .nil, .publish (some 1),
      .newMsg (some "foo".toList) 0x801 .nil, .publish (some 2), .newSubscriber 5 none]
      Bus.init).bind fun (_, s) => (psSubscribeFlags s 0 "foo Sp3".toList none).map
        fun (r, s') => (r, s'.pushes)) =
      some (0, [⟨0, "foo".toList, 1, 3, .ok⟩, ⟨0, "foo".toList, 2, 3, .ok⟩]) := by
    decide +kernel
  obtain ⟨⟨rs, s⟩, hexec, hlast⟩ := Option.bind_eq_some_iff.mp hcalls
  obtain ⟨⟨r, s'⟩, hsub, heq⟩ := Option.map_eq_some_iff.mp hlast
  obtain ⟨rfl, hpushes⟩ := Prod.mk.inj heq
  have hrun := run_of_exec hexec
  obtain ⟨us, ps, hd, hus, happ, hmsgs, -⟩ := sticky_replay hrun hsub
  refine ⟨_, s, s', hrun, hsub, hpushes, us, ps, hd, happ, hmsgs, fun u => ?_⟩
  rw [hus]
  exact and_congr_right fun _ => and_iff_right rfl

end PubSub
