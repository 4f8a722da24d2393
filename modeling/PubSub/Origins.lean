import PubSub.Bus.Serving
import PubSub.StickyStore

/-! Why each push is made: the call publishes the message, or a subscription that it
makes is sent a sticky message. No call adds subscriptions but those it requests. -/

namespace PubSub

open Lib Bus

variable {Q : Type → Type} [PsQueue Q] [LawfulPsQueue Q]

/-- The pushes between two states are all as `P` says. -/
def Adds (s s' : Bus Q) (P : Push → Prop) : Prop :=
  ∃ ps, s'.pushes = s.pushes ++ ps ∧ ∀ p ∈ ps, P p

namespace Adds
variable {a b c : Bus Q} {P P' : Push → Prop}

theorem none (h : b.pushes = a.pushes) : Adds a b P :=
  ⟨[], by rw [h, List.append_nil], fun p hp => (nomatch hp)⟩

theorem trans (h₁ : Adds a b P) (h₂ : Adds b c P) : Adds a c P := by
  obtain ⟨ps, hps, hP⟩ := h₁
  obtain ⟨qs, hqs, hP'⟩ := h₂
  refine ⟨ps ++ qs, by rw [hqs, hps, List.append_assoc], fun p hp => ?_⟩
  rcases List.mem_append.mp hp with hp | hp
  · exact hP p hp
  · exact hP' p hp

theorem imp (h : Adds a b P) (hP : ∀ p, P p → P' p) : Adds a b P' := by
  obtain ⟨ps, hps, hp⟩ := h
  exact ⟨ps, hps, fun p hmem => hP p (hp p hmem)⟩

end Adds

/-! ### Subscriptions -/

/-- A topic string with the flags passed beside it. -/
abbrev Request := Str × Option PsSubFlags

/-- The push sends a new subscription of `su` a sticky message of its topic or, with
`child_sticky`, of one below. -/
structure Replays (s : Bus Q) (su : SubId) (sub : Request) (p : Push) : Prop where
  subscriber : p.su = su
  via : p.via = cutFlags sub.1
  fresh : su ∉ (entriesAt s.topicMap (cutFlags sub.1)).map SubscriberList.su
  wanted : (subFlags sub.1 sub.2).noSticky = false
  sticky : ∃ t, stickyAt s.topicMap t = some p.msg ∧ (t = cutFlags sub.1 ∨
    ((subFlags sub.1 sub.2).childSticky = true ∧ IsAncestor '.' (cutFlags sub.1) t))

/-- The push is made for a subscription of the list that no earlier one precludes. -/
def ReplaysIn (s : Bus Q) (su : SubId) (subs : List Request) (p : Push) : Prop :=
  ∃ pre sub post, subs = pre ++ sub :: post ∧ cutFlags sub.1 ∉ pre.map (fun x => cutFlags x.1) ∧
    Replays s su sub p

section Subscribe
variable {s s' : Bus Q} {su : SubId} {r : ℤ} {n : ℕ}

theorem mem_childStickies {topicMap : Cells TopicMap} {pre : Str} {tms : List TopicId} {msg : MsgId}
    (hn : Names topicMap) (h : msg ∈ childStickies topicMap pre tms) :
    ∃ t, stickyAt topicMap t = some msg ∧ IsAncestor '.' pre t := by
  obtain ⟨tm, -, htm⟩ := List.mem_filterMap.mp h
  obtain ⟨t, ht, hst⟩ := Option.bind_eq_some_iff.mp htm
  split at hst
  case isFalse => cases hst
  case isTrue hin =>
    refine ⟨t.topic, ?_, inSubtree_iff.mp hin⟩
    rw [stickyAt, topicAt_topic hn ht, Option.bind_some, hst]

theorem mem_replayed {topicMap : Cells TopicMap} {topic : Str} {flags : PsSubFlags} {msg : MsgId}
    (hn : Names topicMap) (h : msg ∈ replayed topicMap topic flags) : flags.noSticky = false ∧
      ∃ t, stickyAt topicMap t = some msg ∧
        (t = topic ∨ (flags.childSticky = true ∧ IsAncestor '.' topic t)) := by
  rw [replayed] at h
  split at h
  case isTrue => cases h
  case isFalse hno =>
    refine ⟨Bool.eq_false_iff.mpr hno, ?_⟩
    split at h
    case isTrue hchild =>
      obtain ⟨t, ht, hanc⟩ := mem_childStickies hn h
      exact ⟨t, ht, .inr ⟨hchild, hanc⟩⟩
    case isFalse => exact ⟨topic, Option.mem_toList.mp h, .inl rfl⟩

theorem psSubscribeFlags_adds {topic : Str} {pflags : Option PsSubFlags} (hok : s.Ok)
    (h : psSubscribeFlags s su topic pflags = some (r, s')) :
    Adds s s' (Replays s su (topic, pflags)) ∧
      ∀ name, su ∈ (entriesAt s'.topicMap name).map SubscriberList.su ↔
        su ∈ (entriesAt s.topicMap name).map SubscriberList.su ∨ name = cutFlags topic := by
  rcases psSubscribeFlags_cases hok h with ⟨-, hin, rfl⟩ | ⟨-, s₁, ps, hsub⟩
  · refine ⟨.none rfl, fun name => ⟨.inl, ?_⟩⟩
    rintro (hname | rfl)
    · exact hname
    · exact hin
  · obtain ⟨tm, he⟩ := hsub.edit
    constructor
    · refine ⟨ps, by rw [hsub.pushes.pushes, hsub.rest.2.1], fun p hp => ?_⟩
      have hreq : p.request ∈ ps.map Push.request := List.mem_map_of_mem hp
      rw [hsub.requests] at hreq
      obtain ⟨msg, hmsg, heq⟩ := List.mem_map.mp hreq
      simp only [Push.request, Prod.mk.injEq] at heq
      obtain ⟨hsu, hvia, rfl, -⟩ := heq
      obtain ⟨hno, t, ht, hor⟩ := mem_replayed he.names hmsg
      rw [hsub.quiet.sticky] at ht
      exact ⟨hsu.symm, hvia.symm, hsub.fresh, hno, t, ht, hor⟩
    · intro name
      rw [hsub.pushes.sameShape.topicMap, he.entriesAt, Function.update_apply]
      split
      case isTrue hname => simp [hname]
      case isFalse hname => simp [hname]

/-- A subscription of the rest of a list, seen from before the first one. -/
theorem ReplaysIn.cons {sub : Request} {subs : List Request} {p : Push}
    (hst : stickyAt s'.topicMap = stickyAt s.topicMap)
    (hentries : ∀ name, su ∈ (entriesAt s'.topicMap name).map SubscriberList.su ↔
      su ∈ (entriesAt s.topicMap name).map SubscriberList.su ∨ name = cutFlags sub.1)
    (h : ReplaysIn s' su subs p) : ReplaysIn s su (sub :: subs) p := by
  obtain ⟨pre, x, post, rfl, hpre, hx⟩ := h
  have hfresh := hx.fresh
  rw [hentries, not_or] at hfresh
  refine ⟨sub :: pre, x, post, rfl, ?_, hx.subscriber, hx.via, hfresh.1, hx.wanted, ?_⟩
  · rw [List.map_cons, List.mem_cons, not_or]
    exact ⟨hfresh.2, hpre⟩
  · rw [← hst]
    exact hx.sticky

theorem psSubscribeMany_adds {subs : Option (List Str)} (hok : s.Ok)
    (h : psSubscribeMany s su subs = some (n, s')) :
    Adds s s' (ReplaysIn s su ((subs.getD []).map fun x => (x, none))) := by
  refine psSubscribeMany_induct (R := fun topics _ s s' =>
    Adds s s' (ReplaysIn s su (topics.map fun x => (x, none)))) (fun _ _ => .none rfl)
    (fun topic topics r k a b c hok hab hbc => ?_) hok h
  obtain ⟨hfirst, hentries⟩ := psSubscribeFlags_adds hok hab
  rw [List.map_cons]
  refine (hfirst.imp fun p hp => ?_).trans (hbc.imp fun p hp => ?_)
  · exact ⟨[], _, _, rfl, by simp, hp⟩
  · exact hp.cons (psSubscribeFlags_quiet hok hab).1.sticky hentries

theorem psNewSubscriber_adds {queueSize : ℕ} {subs : Option (List Str)} (hok : s.Ok)
    (h : psNewSubscriber s queueSize subs = some (su, s')) :
    Adds s s' (ReplaysIn s s.subscribers.next ((subs.getD []).map fun x => (x, none))) := by
  obtain ⟨rfl, n, s₁, h₁, rfl⟩ := psNewSubscriber_eq_some h
  obtain ⟨ps, hps, hP⟩ := psSubscribeMany_adds (addSubscriber_quiet hok queueSize).ok h₁
  refine ⟨ps, hps, fun p hp => ?_⟩
  obtain ⟨pre, x, post, hx, hpre, hr⟩ := hP p hp
  exact ⟨pre, x, post, hx, hpre, hr.subscriber, hr.via, hr.fresh, hr.wanted, hr.sticky⟩

theorem psUnsubscribeMany_pushes {subs : Option (List Str)} (hok : s.Ok)
    (h : psUnsubscribeMany s su subs = some (n, s')) : s'.pushes = s.pushes :=
  psUnsubscribeMany_rule (R := fun s s' => s'.pushes = s.pushes) (fun _ _ => rfl)
    (fun _ _ _ h₁ h₂ => h₂.trans h₁)
    (fun _ _ _ _ hok h => by rw [(psUnsubscribe_serves hok h).pushes, List.append_nil]) hok h

end Subscribe

/-! ### The entries that calls make -/

/-- The entry that a request of `su` makes. -/
def requestedEntry (su : SubId) (sub : Request) : SubscriberList :=
  ⟨su, (subFlags sub.1 sub.2).hidden, (subFlags sub.1 sub.2).onEmpty,
    (subFlags sub.1 sub.2).priority.toInt8⟩

/-- The entry is one that the list asks for, in the topic that it names. -/
def Requested (su : SubId) (subs : List Request) (name : Str) (sl : SubscriberList) : Prop :=
  ∃ sub ∈ subs, name = cutFlags sub.1 ∧ sl = requestedEntry su sub

/-- Every entry of the second state is one of the first or is as `P` says. -/
def EntriesFrom (s s' : Bus Q) (P : Str → SubscriberList → Prop) : Prop :=
  ∀ name, ∀ sl ∈ entriesAt s'.topicMap name, sl ∈ entriesAt s.topicMap name ∨ P name sl

namespace EntriesFrom
variable {a b c : Bus Q} {P P' : Str → SubscriberList → Prop}

theorem of_subset (h : ∀ name, entriesAt b.topicMap name ⊆ entriesAt a.topicMap name) :
    EntriesFrom a b P := fun name _ hsl => .inl (h name hsl)

theorem of_others {su : SubId}
    (h : ∀ name, entriesAt b.topicMap name = others su (entriesAt a.topicMap name)) :
    EntriesFrom a b P := .of_subset fun name => by rw [h]; exact others_subset su _

theorem of_eq (h : entriesAt b.topicMap = entriesAt a.topicMap) : EntriesFrom a b P :=
  .of_subset fun name => by rw [h]; exact List.Subset.refl _

theorem of_topicMap (h : b.topicMap = a.topicMap) : EntriesFrom a b P := .of_eq (by rw [h])

theorem trans (h₁ : EntriesFrom a b P) (h₂ : EntriesFrom b c P) : EntriesFrom a c P := by
  intro name sl hsl
  rcases h₂ name sl hsl with hmid | hP
  · exact h₁ name sl hmid
  · exact .inr hP

theorem imp (h : EntriesFrom a b P) (hP : ∀ name sl, P name sl → P' name sl) :
    EntriesFrom a b P' := fun name sl hsl => (h name sl hsl).imp_right (hP name sl)

end EntriesFrom

/-- No subscription of `x` is added between two states. -/
def NoneAdded (x : SubId) (s s' : Bus Q) : Prop :=
  ∀ name, x ∈ (entriesAt s'.topicMap name).map SubscriberList.su →
    x ∈ (entriesAt s.topicMap name).map SubscriberList.su

theorem EntriesFrom.noneAdded {s s' : Bus Q} {su x : SubId} {subs : List Request}
    (h : EntriesFrom s s' (Requested su subs)) (hx : subs ≠ [] → su ≠ x) : NoneAdded x s s' := by
  intro name hname
  obtain ⟨sl, hsl, rfl⟩ := List.mem_map.mp hname
  rcases h name sl hsl with hold | ⟨sub, hsub, -, rfl⟩
  · exact List.mem_map_of_mem hold
  · exact absurd rfl (hx (List.ne_nil_of_mem hsub))

section Listed
variable {s s' : Bus Q} {su x : SubId} {r : ℤ} {n : ℕ}

theorem psSubscribeFlags_entries {topic : Str} {pflags : Option PsSubFlags} (hok : s.Ok)
    (h : psSubscribeFlags s su topic pflags = some (r, s')) :
    EntriesFrom s s' (Requested su [(topic, pflags)]) := by
  rcases psSubscribeFlags_cases hok h with ⟨-, -, rfl⟩ | ⟨-, s₁, ps, hsub⟩
  · exact .of_topicMap rfl
  · obtain ⟨tm, he⟩ := hsub.edit
    intro name sl hsl
    rw [hsub.pushes.sameShape.topicMap, he.entriesAt, Function.update_apply] at hsl
    split at hsl
    case isTrue heq =>
      subst heq
      rcases List.mem_append.mp hsl with hold | hnew
      · exact .inl hold
      · exact .inr ⟨_, List.mem_singleton_self _, rfl, List.mem_singleton.mp hnew⟩
    case isFalse => exact .inl hsl

theorem psSubscribeMany_entries {subs : Option (List Str)} (hok : s.Ok)
    (h : psSubscribeMany s su subs = some (n, s')) :
    EntriesFrom s s' (Requested su ((subs.getD []).map fun x => (x, none))) := by
  refine psSubscribeMany_induct (R := fun topics _ s s' =>
    EntriesFrom s s' (Requested su (topics.map fun x => (x, none)))) (fun _ _ => .of_topicMap rfl)
    (fun topic topics r k a b c hok hab hbc => ?_) hok h
  have hfirst : EntriesFrom a b (Requested su [(topic, none)]) := psSubscribeFlags_entries hok hab
  rw [List.map_cons]
  refine (hfirst.imp fun name sl hsl => ?_).trans (hbc.imp fun name sl hsl => ?_)
  · obtain ⟨sub, hsub, hname⟩ := hsl
    exact ⟨sub, by rw [List.mem_singleton.mp hsub]; exact List.mem_cons_self, hname⟩
  · obtain ⟨sub, hsub, hname⟩ := hsl
    exact ⟨sub, List.mem_cons_of_mem _ hsub, hname⟩

theorem psNewSubscriber_entries {queueSize : ℕ} {subs : Option (List Str)} (hok : s.Ok)
    (h : psNewSubscriber s queueSize subs = some (su, s')) :
    EntriesFrom s s' (Requested s.subscribers.next ((subs.getD []).map fun x => (x, none))) := by
  obtain ⟨-, n, s₁, h₁, rfl⟩ := psNewSubscriber_eq_some h
  have hmany := psSubscribeMany_entries (addSubscriber_quiet hok queueSize).ok h₁
  exact hmany

theorem psUnsubscribe_entries {topic : Str} {P : Str → SubscriberList → Prop} (hok : s.Ok)
    (h : psUnsubscribe s su topic = some (r, s')) : EntriesFrom s s' P := by
  rcases psUnsubscribe_cases hok h with ⟨-, -, rfl⟩ | ⟨-, -, S, tm, -, -, -, he, -⟩
  · exact .of_topicMap rfl
  · refine .of_subset fun name => ?_
    rw [he.entriesAt, Function.update_apply]
    split
    case isTrue heq =>
      rw [heq]
      exact List.eraseP_subset
    case isFalse => exact List.Subset.refl _

theorem psFreeSubscriber_entries {P : Str → SubscriberList → Prop} (hok : s.Ok)
    (h : psFreeSubscriber s su = some s') : EntriesFrom s s' P := by
  obtain ⟨s₂, S, -, -, -, -, -, -, -, hsub, rfl⟩ := psFreeSubscriber_eq_some hok h
  exact .of_others hsub

theorem Published.entries {msg : MsgId} {m : PsMsg} {topic : Str} {as : List Attempt}
    {s₀ s₁ : Bus Q} {P : Str → SubscriberList → Prop}
    (h : Published s msg n s' m topic as s₀ s₁) (hok : s.Ok) : EntriesFrom s s' P :=
  .of_eq (h.edit hok).entriesAt

end Listed

/-! ### One call -/

/-- The subscriptions that a call makes, and for whom. -/
def requested (s : Bus Q) : Op → SubId × List Request
  | .subscribe su topic => (su, [(topic, none)])
  | .subscribeFlags su topic flags => (su, [(topic, flags)])
  | .subscribeMany su subs => (su, (subs.getD []).map fun x => (x, none))
  | .newSubscriber _ subs => (s.subscribers.next, (subs.getD []).map fun x => (x, none))
  | .call _ _ => (s.subscribers.next, [(callTopic (s.uuidCtr + 1), none)])
  | .waitOne topic _ => (s.subscribers.next, [(topic, none)])
  | _ => (0, [])

/-- Why a call makes a push. -/
inductive Origin (s : Bus Q) (op : Op) (p : Push) : Prop
  | publish {m : PsMsg} {t : Str} {b : Bool} : stickyEvent s op = some (.publish p.msg t b) →
      s.messages.cells.get p.msg = some m → p.via ∈ visited m t →
      (p.su ≠ s.subscribers.next → p.su ∈ (entriesAt s.topicMap p.via).map SubscriberList.su) →
      Origin s op p
  | replay : ReplaysIn s (requested s op).1 (requested s op).2 p → Origin s op p

theorem Published.adds {s s' : Bus Q} {msg : MsgId} {n : ℕ} {m : PsMsg} {topic : Str}
    {as : List Attempt} {s₀ s₁ : Bus Q} (h : Published s msg n s' m topic as s₀ s₁) :
    Adds s s' fun p => p.msg = msg ∧ p.via ∈ visited m topic ∧
      p.su ∈ (entriesAt s.topicMap p.via).map SubscriberList.su := by
  refine ⟨_, h.log, fun p hp => ?_⟩
  obtain ⟨a, ha, rfl⟩ := List.mem_map.mp hp
  obtain ⟨name, hname, hentry⟩ := List.mem_flatMap.mp (offers_mem h.offers ha)
  obtain ⟨sl, hsl, heq⟩ := List.mem_map.mp hentry
  cases heq
  exact ⟨rfl, hname, List.mem_map_of_mem hsl⟩

theorem psFreeSubscriber_pushes {s s' : Bus Q} {su : SubId} (hok : s.Ok)
    (h : psFreeSubscriber s su = some s') : s'.pushes = s.pushes := by
  rw [(psFreeSubscriber_serves hok h).1.pushes, List.append_nil]

theorem Called.adds {s s' : Bus Q} {msg : MsgId} {timeout : Int64} {ret : Option MsgId}
    {s₁ s₂ s₃ s₄ : Bus Q} {su : SubId} {n : ℕ}
    (h : Called s msg timeout ret s' s₁ s₂ s₃ s₄ su n) (hok : s.Ok) :
    Adds s s' (Origin s (.call msg timeout)) := by
  obtain ⟨hok₁, hok₂, hok₃, hok₄, -⟩ := h.oks hok
  obtain ⟨ms, hms, rfl⟩ := h.counter
  obtain ⟨m, hm, rfl⟩ := psMsgSetRtopic_eq_some hms
  have hnew := psNewSubscriber_quiet hok₁ h.new
  obtain ⟨m₂, topic, as, t₀, t₁, hpub⟩ := psPublish_published hok₂.names hok₂.alive h.publish
  -- the message as it is published is the caller's, with another `rtopic`
  obtain ⟨m₁, hm₁, hm₂⟩ := hnew.content.content msg m₂ hpub.get
  rw [Cells.get_modify_self, hm, Option.map_some] at hm₁
  cases hm₁
  obtain ⟨msgTopic, htopic, rfl⟩ := hpub.topic_eq
  have hevent : publishEvent s msg = some (.publish msg (cutFlags msgTopic) m.sticky) := by
    apply publishEvent_of_get hm
    rw [← htopic, hm₂]
  have hvisited : visited m₂ (cutFlags msgTopic) = visited m (cutFlags msgTopic) := by
    rw [hm₂]
    rfl
  have hfirst : Adds s s₂ (Origin s (.call msg timeout)) := by
    obtain ⟨ps, hps, hP⟩ := psNewSubscriber_adds hok₁ h.new
    refine ⟨ps, hps, fun p hp => .replay ?_⟩
    obtain ⟨pre, x, post, hx, hpre, hr⟩ := hP p hp
    exact ⟨pre, x, post, hx, hpre, hr.subscriber, hr.via, hr.fresh, hr.wanted, hr.sticky⟩
  have hlast : s'.pushes = s₃.pushes := by
    rw [psFreeSubscriber_pushes hok₄ h.free]
    rcases h.get with ⟨-, -, rfl⟩ | ⟨-, hget⟩
    · rfl
    · exact (psGet_ok hok₃ hget).2.2.2.2.1
  refine hfirst.trans ((hpub.adds.imp fun p hp => ?_).trans (.none hlast))
  obtain ⟨rfl, hvia, hlisted⟩ := hp
  refine .publish hevent hm (by rwa [← hvisited]) fun hne => ?_
  -- the temporary subscriber apart, the call lists no one in between
  have hnone := (psNewSubscriber_entries hok₁ h.new).noneAdded fun _ => hne.symm
  exact hnone p.via hlisted

/-- Every push has its origin in the call that makes it. -/
theorem step_adds {s s' : Bus Q} {op : Op} {r : Ret} (hok : s.Ok) (h : step s op = some (r, s')) :
    Adds s s' (Origin s op) := by
  have hone : ∀ {su : SubId} {sub : Request} {p : Push}, Replays s su sub p →
      ReplaysIn s su [sub] p := fun hp => ⟨[], _, [], rfl, by simp, hp⟩
  cases op
  all_goals
    obtain ⟨x, hx, heq⟩ := Option.map_eq_some_iff.mp h
    cases heq
  case newSubscriber => exact (psNewSubscriber_adds hok hx).imp fun p hp => .replay hp
  case subscribe => exact (psSubscribeFlags_adds hok hx).1.imp fun p hp => .replay (hone hp)
  case subscribeFlags => exact (psSubscribeFlags_adds hok hx).1.imp fun p hp => .replay (hone hp)
  case subscribeMany => exact (psSubscribeMany_adds hok hx).imp fun p hp => .replay hp
  case publish msg =>
    cases msg with
    | none =>
      cases hx
      exact .none rfl
    | some msg =>
      obtain ⟨n, s'⟩ := x
      obtain ⟨m, topic, as, s₀, s₁, hp⟩ := psPublish_published hok.names hok.alive hx
      obtain ⟨msgTopic, htopic, rfl⟩ := hp.topic_eq
      refine hp.adds.imp fun p hpush => ?_
      obtain ⟨rfl, hvia, hlisted⟩ := hpush
      exact .publish (publishEvent_of_get hp.get htopic) hp.get hvia fun _ => hlisted
  case call msg timeout =>
    obtain ⟨ret, s'⟩ := x
    obtain ⟨s₁, s₂, s₃, s₄, su, n, hc⟩ := psCall_called hx
    exact hc.adds hok
  case waitOne topic timeout =>
    obtain ⟨ret, s'⟩ := x
    obtain ⟨su, s₁, s₂, hnew, hget, hfree⟩ := psWaitOne_eq_some hx
    have hget' := psGet_ok (psNewSubscriber_quiet hok hnew).ok hget
    refine ((psNewSubscriber_adds hok hnew).imp fun p hp => .replay hp).trans (.none ?_)
    rw [psFreeSubscriber_pushes hget'.1 hfree, hget'.2.2.2.2.1]
  case freeSubscriber => exact .none (psFreeSubscriber_pushes hok hx)
  case setNewMsgCb =>
    obtain ⟨S, callbacks, -, rfl⟩ := psSetNewMsgCb_eq_some hx
    exact .none rfl
  case setNonEmptyCb =>
    obtain ⟨S, callbacks, -, rfl⟩ := psSetNonEmptyCb_eq_some hx
    exact .none rfl
  case get => exact .none (psGet_ok hok hx).2.2.2.2.1
  case flush =>
    obtain ⟨S, q, ms, -, hf⟩ := psFlush_flushed hx
    exact .none (by rw [hf.state])
  case overflow =>
    obtain ⟨S, -, -, hs⟩ := psOverflow_eq_some hx
    exact .none (by rw [hs]; rfl)
  case unsubscribe =>
    exact .none (by rw [(psUnsubscribe_serves hok hx).pushes, List.append_nil])
  case unsubscribeMany => exact .none (psUnsubscribeMany_pushes hok hx)
  case unsubscribeAll =>
    exact .none (by rw [(psUnsubscribeAll_serves hok hx).pushes, List.append_nil])
  case cleanSticky => exact .none (psCleanSticky_cleaned hok.names hok.alive hx).pushes
  all_goals exact .none rfl

/-- A call makes no entries but those it requests. -/
theorem step_entries {s s' : Bus Q} {op : Op} {r : Ret} (hok : s.Ok)
    (h : step s op = some (r, s')) :
    EntriesFrom s s' (Requested (requested s op).1 (requested s op).2) := by
  cases op
  all_goals
    obtain ⟨y, hy, heq⟩ := Option.map_eq_some_iff.mp h
    cases heq
  case newSubscriber => exact psNewSubscriber_entries hok hy
  case freeSubscriber => exact psFreeSubscriber_entries hok hy
  case setNewMsgCb =>
    obtain ⟨S, callbacks, -, rfl⟩ := psSetNewMsgCb_eq_some hy
    exact .of_topicMap rfl
  case setNonEmptyCb =>
    obtain ⟨S, callbacks, -, rfl⟩ := psSetNonEmptyCb_eq_some hy
    exact .of_topicMap rfl
  case get => exact .of_topicMap (psGet_ok hok hy).2.2.1
  case flush =>
    obtain ⟨S, q, ms, hS, hf⟩ := psFlush_flushed hy
    exact .of_topicMap (hf.sameShape hS).topicMap
  case overflow =>
    obtain ⟨S, -, -, hs⟩ := psOverflow_eq_some hy
    exact .of_topicMap (by rw [hs]; rfl)
  case subscribe => exact psSubscribeFlags_entries hok hy
  case subscribeFlags => exact psSubscribeFlags_entries hok hy
  case subscribeMany => exact psSubscribeMany_entries hok hy
  case unsubscribe => exact psUnsubscribe_entries hok hy
  case unsubscribeMany su subs =>
    exact psUnsubscribeMany_rule
      (R := fun s s' => EntriesFrom s s' (Requested (requested s (.unsubscribeMany su subs)).1
        (requested s (.unsubscribeMany su subs)).2))
      (fun s _ => .of_topicMap rfl) (fun _ _ _ => EntriesFrom.trans)
      (fun _ _ _ _ hok h => psUnsubscribe_entries hok h) hok hy
  case unsubscribeAll =>
    obtain ⟨S, T, -, -, heq, -, hsub, -⟩ := psUnsubscribeAll_eq_some hok hy
    exact .of_others (by rw [heq]; exact hsub)
  case publish msg =>
    cases msg with
    | none =>
      cases hy
      exact .of_topicMap rfl
    | some msg =>
      obtain ⟨n, s'⟩ := y
      obtain ⟨m, topic, as, s₀, s₁, hp⟩ := psPublish_published hok.names hok.alive hy
      exact hp.entries hok
  case cleanSticky => exact .of_eq (psCleanSticky_cleaned hok.names hok.alive hy).entriesAt
  case call msg timeout =>
    obtain ⟨ret, s'⟩ := y
    obtain ⟨s₁, s₂, s₃, s₄, su, n, hc⟩ := psCall_called hy
    obtain ⟨hok₁, hok₂, hok₃, hok₄, -⟩ := hc.oks hok
    obtain ⟨m, topic, as, t₀, t₁, hp⟩ := psPublish_published hok₂.names hok₂.alive hc.publish
    have hnew : EntriesFrom s s₂ (Requested s.subscribers.next
        [(callTopic (s.uuidCtr + 1), none)]) := by
      obtain ⟨ms, -, rfl⟩ := hc.counter
      have hadd := psNewSubscriber_entries hok₁ hc.new
      exact hadd
    have hget : s₄.topicMap = s₃.topicMap := by
      rcases hc.get with ⟨-, -, rfl⟩ | ⟨-, hget⟩
      · rfl
      · exact (psGet_ok hok₃ hget).2.2.1
    exact ((hnew.trans (hp.entries hok₂)).trans (.of_topicMap hget)).trans
      (psFreeSubscriber_entries hok₄ hc.free)
  case waitOne topic timeout =>
    obtain ⟨ret, s'⟩ := y
    obtain ⟨su, s₁, s₂, hnew, hget, hfree⟩ := psWaitOne_eq_some hy
    have hget' := psGet_ok (psNewSubscriber_quiet hok hnew).ok hget
    have hfirst : EntriesFrom s s₁ (Requested s.subscribers.next [(topic, none)]) :=
      psNewSubscriber_entries hok hnew
    exact (hfirst.trans (.of_topicMap hget'.2.2.1)).trans
      (psFreeSubscriber_entries hget'.1 hfree)
  all_goals exact .of_topicMap rfl

/-- A call adds no subscription of a subscriber for which it requests none. -/
theorem step_noneAdded {s s' : Bus Q} {x : SubId} {op : Op} {r : Ret} (hok : s.Ok)
    (hx : (requested s op).2 ≠ [] → (requested s op).1 ≠ x) (h : step s op = some (r, s')) :
    NoneAdded x s s' := (step_entries hok h).noneAdded hx

end PubSub
