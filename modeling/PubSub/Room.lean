import PubSub.Priorities
import PubSub.StickyReplay

/-! Room in the reference counters: what a push takes of it, and that subscriptions with
priorities of one digit return while there is enough for what they replay. -/

namespace PubSub

open Lib Bus

variable {Q : Type → Type} [PsQueue Q] [LawfulPsQueue Q]

namespace Bus
variable {s s' : Bus Q} {held : MsgId → ℕ} {k : ℕ}

/-- The counters are right and every one has room for `k` more references. -/
structure Spare (s : Bus Q) (held : MsgId → ℕ) (k : ℕ) : Prop where
  refOk : s.RefOk held
  noWrap : s.messages.refWrap = false
  room : ∀ i, s.account held i + k < 2 ^ 32

theorem Spare.mono {j : ℕ} (h : s.Spare held k) (hjk : j ≤ k) : s.Spare held j :=
  ⟨h.refOk, h.noWrap, fun i => Nat.lt_of_le_of_lt (Nat.add_le_add_left hjk _) (h.room i)⟩

theorem Spare.messages_room (h : s.Spare held k) (i : MsgId) : s.messages.Room i k := by
  intro m hm
  have hrefs := (h.refOk h.noWrap i).1
  rw [Messages.refs_of_get hm] at hrefs
  rw [hrefs]
  exact h.room i

theorem Spare.ready (h : s.Spare held k) {msg : MsgId} (hmsg : 0 < held msg) :
    s.Ready held msg k :=
  ⟨h.refOk, h.noWrap, hmsg, h.messages_room msg⟩

/-- A push takes room for one reference. -/
theorem Spare.push {p : Push} (hp : PushStep s p s') (h : s.Spare held (k + 1)) :
    s'.Spare held k := by
  refine ⟨hp.refOk h.refOk, ?_, fun i => ?_⟩
  · obtain ⟨S, evicted, q, ms₁, ms₂, ms₃, hS, hq, h₁, h₂, h₃, rfl⟩ := hp
    have hmid := PushStep.refOk_midway h.refOk h₁ hS hq 0
    obtain ⟨hk₁, hw₁⟩ := psRefMsg_room h₁ (h.messages_room p.msg)
    obtain ⟨hk₂, hw₂⟩ := psUnrefMsg_room h₂ hmid (hw₁.trans h.noWrap) hk₁
    exact (psUnrefMsg_room h₃ (psUnrefMsg_refOk h₂ hmid) hw₂ hk₂).2
  · have hle : s'.account held i ≤ s.account held i + ownRef (some p.msg) i := hp.account_le i
    have hone : ownRef (some p.msg) i ≤ 1 := by
      rw [ownRef]
      split <;> omega
    have hroom := h.room i
    omega

theorem Spare.pushes {ps : List Push} (hp : s.Pushes ps s') (h : s.Spare held (k + ps.length)) :
    s'.Spare held k := by
  induction hp generalizing k with
  | nil => exact h
  | @snoc ps t u p _ hp ih =>
    apply Spare.push hp
    apply ih
    rw [List.length_append, List.length_singleton] at h
    rwa [Nat.add_assoc, Nat.add_comm 1]

end Bus

/-- The number of messages that new subscriptions are sent. -/
def replayCount (topicMap : Cells TopicMap) (subs : List Request) : ℕ :=
  (subs.map fun sub => (replayedTopics topicMap (cutFlags sub.1) (subFlags sub.1 sub.2)).length).sum

theorem replayCount_eq {a b : Cells TopicMap} (ha : Names a) (hb : Names b)
    (h : stickyAt b = stickyAt a) (subs : List Request) : replayCount b subs = replayCount a subs := by
  unfold replayCount
  congr 1
  apply List.map_congr_left
  intro sub _
  exact (replayedTopics_perm ha hb h).length_eq

theorem replayCount_cons (topicMap : Cells TopicMap) (sub : Request) (subs : List Request) :
    replayCount topicMap (sub :: subs) = replayCount topicMap [sub] + replayCount topicMap subs := by
  simp [replayCount]

section Subscribe
variable {s s' : Bus Q} {su : SubId} {held : MsgId → ℕ} {k : ℕ}

/-- A subscription of a live subscriber returns, and takes room for what it replays. -/
theorem psSubscribeFlags_spare {t : Str} {pflags : Option PsSubFlags} (hok : s.Ok)
    (hsu : (s.subscribers.get su).isSome) (hp : (subFlags t pflags).priority.toNat < 10)
    (h : s.Spare held (k + replayCount s.topicMap [(t, pflags)])) :
    ∃ r s', psSubscribeFlags s su t pflags = some (r, s') ∧ s'.Spare held k ∧
      Quiet s s' ∧ SameSubscribers s s' := by
  obtain ⟨S, hS⟩ := Option.isSome_iff_exists.mp hsu
  have hone : replayCount s.topicMap [(t, pflags)] =
      (replayedTopics s.topicMap (cutFlags t) (subFlags t pflags)).length := by
    rw [replayCount, List.map_singleton, List.sum_singleton]
  obtain ⟨r, s', hsub⟩ := psSubscribeFlags_exists hok h.refOk h.noWrap hS hp fun u _ i _ =>
    hone ▸ (h.mono (Nat.le_add_left _ k)).room i
  obtain ⟨hquiet, hsame⟩ := psSubscribeFlags_quiet hok hsub
  refine ⟨r, s', hsub, ?_, hquiet, hsame⟩
  rcases psSubscribeFlags_cases hok hsub with ⟨-, -, rfl⟩ | ⟨-, s₁, ps, hs⟩
  · exact h.mono (Nat.le_add_right _ _)
  · have hlen : ps.length = replayCount s.topicMap [(t, pflags)] := by
      have hreq := congrArg List.length hs.requests
      rw [List.length_map, List.length_map, length_replayed hs.quiet.ok.names] at hreq
      rw [hreq, ← replayCount_eq hok.names hs.quiet.ok.names hs.quiet.sticky, replayCount,
        List.map_singleton, List.sum_singleton]
    have haccount : s₁.account held = s.account held := by
      obtain ⟨S', tm, hS', hsubs⟩ := hs.subscribers
      obtain ⟨i, he⟩ := hs.edit
      funext j
      have hslots := slotsOf_modify hS' { S' with subs := S'.subs ++ [tm] } j
      simp only [Bus.account, hsubs, he.stickies, Pi.add_apply] at hslots ⊢
      omega
    have h₁ : s₁.Spare held (k + ps.length) := by
      refine ⟨hs.quiet.refOk held h.refOk, by rw [hs.rest.1]; exact h.noWrap, fun i => ?_⟩
      rw [haccount, hlen]
      exact h.room i
    exact h₁.pushes hs.pushes

theorem psSubscribeMany_spare {topics : List Str} (hok : s.Ok)
    (hsu : (s.subscribers.get su).isSome)
    (h : s.Spare held (k + replayCount s.topicMap (topics.map fun x => (x, none)))) :
    ∃ n s', psSubscribeMany s su (some topics) = some (n, s') ∧ s'.Spare held k := by
  rw [psSubscribeMany]
  induction topics generalizing s with
  | nil => exact ⟨0, s, rfl, h⟩
  | cons t topics ih =>
    rw [List.map_cons, replayCount_cons, Nat.add_comm (replayCount s.topicMap [(t, none)]),
      ← Nat.add_assoc] at h
    obtain ⟨r, s₁, hsub, h₁, hquiet, hsame⟩ :=
      psSubscribeFlags_spare hok hsu (subFlags_none_priority t) h
    rw [← replayCount_eq hok.names hquiet.ok.names hquiet.sticky] at h₁
    obtain ⟨n, s', hmany, h'⟩ := ih hquiet.ok (by rw [hsame.live]; exact hsu) h₁
    refine ⟨if r = 0 then n + 1 else n, s', ?_, h'⟩
    simp only [countOks, psSubscribe, hsub, Option.bind_eq_bind, Option.bind_some]
    exact (congrArg (Option.bind · _) hmany).trans rfl

theorem psNewSubscriber_spare (n : ℕ) (subs : Option (List Str)) (hok : s.Ok)
    (h : s.Spare held (k + replayCount s.topicMap ((subs.getD []).map fun x => (x, none)))) :
    ∃ su s', psNewSubscriber s n subs = some (su, s') ∧ s'.Spare held k := by
  have hquiet := addSubscriber_quiet hok n
  have haccount : (addSubscriber s n).account held = s.account held := by
    funext i
    simp [Bus.account, addSubscriber, slotsOf, Cells.sum_alloc, newSubscriber]
  have hadd : (addSubscriber s n).Spare held
      (k + replayCount s.topicMap ((subs.getD []).map fun x => (x, none))) :=
    ⟨hquiet.refOk held h.refOk, h.noWrap, fun i => by rw [haccount]; exact h.room i⟩
  have hlive : ((addSubscriber s n).subscribers.get s.subscribers.next).isSome := by
    simp [addSubscriber]
  obtain ⟨j, s₁, hmany, h₁⟩ : ∃ j s₁,
      psSubscribeMany (addSubscriber s n) s.subscribers.next subs = some (j, s₁) ∧
        s₁.Spare held k := by
    cases subs with
    | none => exact ⟨0, _, rfl, hadd.mono (Nat.le_add_right _ _)⟩
    | some topics => exact psSubscribeMany_spare hquiet.ok hlive hadd
  refine ⟨s.subscribers.next, { s₁ with statLiveSubscribers := s₁.statLiveSubscribers + 1 }, ?_,
    ⟨h₁.refOk, h₁.noWrap, h₁.room⟩⟩
  show (psSubscribeMany (addSubscriber s n) s.subscribers.next subs).bind _ = _
  rw [hmany]
  rfl

end Subscribe

end PubSub
