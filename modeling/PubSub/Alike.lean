import PubSub.Bus.Apart
import PubSub.Bus.Shares
import PubSub.SubscriptionLaws

/-! Two states that one subscriber cannot tell apart. The subscriber may have another
address in each, the topics may be other cells, and the rest of the subscribers may
have nothing in common. -/

namespace PubSub

open Lib Bus

variable {Q : Type → Type} [PsQueue Q] [LawfulPsQueue Q]

/-- A message without its counter. -/
def PsMsg.body (m : PsMsg) : PsMsg := { m with ref := 0 }

/-- An entry without its subscriber. -/
def SubscriberList.terms (sl : SubscriberList) : SubscriberList := { sl with su := 0 }

/-- The parts of the state that all subscribers share are the same. A message may be
freed in one state and not yet in the other. -/
structure Alike (s t : Bus Q) : Prop where
  ok : s.Ok
  ok' : t.Ok
  sticky : stickyAt s.topicMap = stickyAt t.topicMap
  next : s.messages.cells.next = t.messages.cells.next
  content : ∀ i m k, s.messages.cells.get i = some m → t.messages.cells.get i = some k →
    m.body = k.body
  uuidCtr : s.uuidCtr = t.uuidCtr

/-- What the subscriber `a` of `s` has is what the subscriber `b` of `t` has. -/
structure OwnAlike (a b : SubId) (s t : Bus Q) : Prop where
  record : (s.subscribers.get a).map PsSubscriber.own = (t.subscribers.get b).map PsSubscriber.own
  entries : ∀ name, (entriesTo a s.topicMap name).map SubscriberList.terms =
    (entriesTo b t.topicMap name).map SubscriberList.terms
  count : psNumSubs s a = psNumSubs t b

section Body
variable {m k : PsMsg} {flags : UInt32} {args : PsValue}

theorem sticky_of_body (h : m.body = k.body) : m.sticky = k.sticky :=
  (congrArg PsMsg.sticky h : m.body.sticky = k.body.sticky)

theorem nonrecursive_of_body (h : m.body = k.body) : m.nonrecursive = k.nonrecursive :=
  (congrArg PsMsg.nonrecursive h : m.body.nonrecursive = k.body.nonrecursive)

theorem topic_of_body (h : m.body = k.body) : m.topic = k.topic :=
  (congrArg PsMsg.topic h : m.body.topic = k.body.topic)

theorem body_setTopic (h : m.body = k.body) (v : Option Str) :
    ({ m with topic := v } : PsMsg).body = ({ k with topic := v } : PsMsg).body :=
  (congrArg (fun m : PsMsg => { m with topic := v }) h : _)

theorem body_setRtopic (h : m.body = k.body) (v : Option Str) :
    ({ m with rtopic := v } : PsMsg).body = ({ k with rtopic := v } : PsMsg).body :=
  (congrArg (fun m : PsMsg => { m with rtopic := v }) h : _)

/-- The counter is not read when the value is set. -/
theorem psMsgSetVvalue_body (m : PsMsg) (flags : UInt32) (args : PsValue) :
    (psMsgSetVvalue m flags args).map PsMsg.body = psMsgSetVvalue m.body flags args := by
  have hset : setValueFlags (psMsgFreeValue m.body) flags =
      (setValueFlags (psMsgFreeValue m) flags).body := rfl
  simp only [psMsgSetVvalue, hset]
  generalize setValueFlags (psMsgFreeValue m) flags = k
  change (if readsArgument k then if k.isType args.typ then some { k with value := args } else none
    else some k).map PsMsg.body =
    if readsArgument k then if k.isType args.typ then some { k.body with value := args } else none
    else some k.body
  split
  · split
    · rfl
    · rfl
  · rfl

theorem dupValue_of_body (h : m.body = k.body) : dupValue m = dupValue k := by
  have hm : dupValue m = dupValue m.body := rfl
  have hk : dupValue k = dupValue k.body := rfl
  rw [hm, hk, h]

end Body

section Symm
variable {s t : Bus Q} {a b : SubId}

theorem Alike.symm (h : Alike s t) : Alike t s :=
  ⟨h.ok', h.ok, h.sticky.symm, h.next.symm, fun i m k hm hk => (h.content i k m hk hm).symm,
    h.uuidCtr.symm⟩

theorem OwnAlike.symm (h : OwnAlike a b s t) : OwnAlike b a t s :=
  ⟨h.record.symm, fun name => (h.entries name).symm, h.count.symm⟩

end Symm

section Step
variable {s s' t t' : Bus Q} {a b : SubId}

/-- References change no content. -/
theorem Alike.bodies (h : Alike s t) (hs : s.messages.SameContent s'.messages)
    (ht : t.messages.SameContent t'.messages) : ∀ i m k, s'.messages.cells.get i = some m →
      t'.messages.cells.get i = some k → m.body = k.body := by
  intro i m k hm hk
  obtain ⟨m₀, hm₀, hmeq⟩ := hs.content i m hm
  obtain ⟨k₀, hk₀, hkeq⟩ := ht.content i k hk
  rw [hmeq, hkeq]
  exact h.content i m₀ k₀ hm₀ hk₀

/-- A step of one side that is calm. -/
theorem Alike.calm (h : Alike s t) (hok : s'.Ok) (hc : Calm s s') : Alike s' t :=
  ⟨hok, h.ok', hc.sticky.trans h.sticky, hc.content.next.trans h.next,
    h.bodies hc.content (.refl _), hc.uuidCtr.trans h.uuidCtr⟩

theorem Alike.calms (h : Alike s t) (hok : s'.Ok) (hok' : t'.Ok) (hc : Calm s s') (hc' : Calm t t') :
    Alike s' t' :=
  ((h.calm hok hc).symm.calm hok' hc').symm

/-- A step of one side that has nothing to do with its subscriber. -/
theorem OwnAlike.apart (h : OwnAlike a b s t) (ha : Apart a s s') : OwnAlike a b s' t := by
  refine ⟨?_, fun name => ?_, ?_⟩
  · rw [ha.record]
    exact h.record
  · rw [ha.entries]
    exact h.entries name
  · rw [← h.count, psNumSubs, ha.record]
    rfl

theorem OwnAlike.aparts (h : OwnAlike a b s t) (ha : Apart a s s') (hb : Apart b t t') :
    OwnAlike a b s' t' :=
  ((h.apart ha).symm.apart hb).symm

theorem OwnAlike.of_same (h : OwnAlike a b s t) (hs : s'.subscribers = s.subscribers)
    (ht : t'.subscribers = t.subscribers) (hes : entriesAt s'.topicMap = entriesAt s.topicMap)
    (het : entriesAt t'.topicMap = entriesAt t.topicMap) : OwnAlike a b s' t' := by
  refine ⟨?_, fun name => ?_, ?_⟩
  · rw [hs, ht]
    exact h.record
  · rw [entriesTo_congr hes, entriesTo_congr het]
    exact h.entries name
  · have hcount := h.count
    rw [psNumSubs, psNumSubs] at hcount ⊢
    rw [hs, ht]
    exact hcount

/-- Two subscribers that do not live have nothing. -/
theorem OwnAlike.of_dead (hok : s.Ok) (hok' : t.Ok) (ha : s.subscribers.get a = none)
    (hb : t.subscribers.get b = none) : OwnAlike a b s t := by
  refine ⟨by rw [ha, hb], fun name => ?_, by rw [psNumSubs, psNumSubs, ha, hb]⟩
  rw [entriesTo_dead hok ha, entriesTo_dead hok' hb]

theorem OwnAlike.dead (h : OwnAlike a b s t) (ha : s.subscribers.get a = none) :
    t.subscribers.get b = none := by
  have hrec := h.record
  rw [ha, Option.map_none] at hrec
  exact Option.map_eq_none_iff.mp hrec.symm

/-- The two records, where the subscribers live. -/
theorem OwnAlike.get (h : OwnAlike a b s t) {S : PsSubscriber Q} (hS : s.subscribers.get a = some S) :
    ∃ T, t.subscribers.get b = some T ∧ S.own = T.own ∧ S.subs.length = T.subs.length := by
  have hrec := h.record
  rw [hS, Option.map_some] at hrec
  obtain ⟨T, hT, hown⟩ := Option.map_eq_some_iff.mp hrec.symm
  have hcount := h.count
  rw [psNumSubs, psNumSubs, hS, hT] at hcount
  exact ⟨T, hT, hown.symm, Option.some.inj hcount⟩

/-- The same change `f` of the two records, which leaves their lists of topics alone. -/
theorem OwnAlike.of_update (h : OwnAlike a b s t) {S T : PsSubscriber Q}
    (f : PsSubscriber Q → PsSubscriber Q) (hf : ∀ R, (f R).own = f R.own)
    (hsubs : ∀ R, (f R).subs = R.subs) (hS : s.subscribers.get a = some S)
    (hT : t.subscribers.get b = some T)
    (hs : s'.subscribers = s.subscribers.modify a fun _ => f S)
    (ht : t'.subscribers = t.subscribers.modify b fun _ => f T)
    (htop : s'.topicMap = s.topicMap) (htop' : t'.topicMap = t.topicMap) : OwnAlike a b s' t' := by
  have hN : s'.subscribers.get a = some (f S) := by
    rw [hs, Cells.get_modify_self, hS, Option.map_some]
  have hM : t'.subscribers.get b = some (f T) := by
    rw [ht, Cells.get_modify_self, hT, Option.map_some]
  obtain ⟨T', hT', hown, hlen⟩ := h.get hS
  obtain rfl : T = T' := Option.some.inj (hT.symm.trans hT')
  refine ⟨?_, fun name => ?_, ?_⟩
  · rw [hN, hM, Option.map_some, Option.map_some, hf, hf, hown]
  · rw [htop, htop']
    exact h.entries name
  · rw [psNumSubs, psNumSubs, hN, hM]
    simp only [Option.bind_eq_bind, Option.bind_some, hsubs, hlen]

end Step

/-! ### Steps that both sides make -/

section Messages
variable {s t : Bus Q} {m k : PsMsg}

/-- Both sides make a message of the same content. -/
theorem Alike.alloc (h : Alike s t) (hbody : m.body = k.body) :
    Alike { s with messages := (allocMsg s.messages m).2 }
      { t with messages := (allocMsg t.messages k).2 } := by
  refine ⟨⟨h.ok.names, h.ok.alive, h.ok.links, allocMsg_statOk h.ok.statOk⟩,
    ⟨h.ok'.names, h.ok'.alive, h.ok'.links, allocMsg_statOk h.ok'.statOk⟩, h.sticky, ?_,
    fun i m' k' hm hk => ?_, h.uuidCtr⟩
  · simp only [allocMsg, Cells.next_alloc, h.next]
  · simp only [allocMsg, Cells.get_alloc, ← h.next] at hm hk
    split at hm
    case isTrue hi =>
      rw [if_pos hi] at hk
      cases hm
      cases hk
      exact hbody
    case isFalse hi =>
      rw [if_neg hi] at hk
      exact h.content i m' k' hm hk

/-- Both sides change the content of the same message in the same way. -/
theorem Alike.modify (h : Alike s t) {i : MsgId} {m' k' : PsMsg} {u : UInt32}
    (hbody : m'.body = k'.body) :
    Alike
      { s with
        uuidCtr := u
        messages := { s.messages with cells := s.messages.cells.modify i fun _ => m' } }
      { t with
        uuidCtr := u
        messages := { t.messages with cells := t.messages.cells.modify i fun _ => k' } } := by
  refine ⟨modifyMsg_ok h.ok u, modifyMsg_ok h.ok' u, h.sticky, ?_, fun j m k hm hk => ?_, rfl⟩
  · simp only [Cells.next_modify, h.next]
  · rw [Cells.get_modify] at hm hk
    split at hm
    case isTrue hj =>
      rw [if_pos hj] at hk
      obtain ⟨-, -, rfl⟩ := Option.map_eq_some_iff.mp hm
      obtain ⟨-, -, rfl⟩ := Option.map_eq_some_iff.mp hk
      exact hbody
    case isFalse hj =>
      rw [if_neg hj] at hk
      exact h.content j m k hm hk

end Messages

section Publish
variable {s s' t t' : Bus Q} {a b : SubId}

/-- The entries of a subscriber on a route, topic by topic. -/
theorem entriesFor_route (x : SubId) (topicMap : Cells TopicMap) (names : List Str) :
    entriesFor x (subscriptionsAt topicMap names) = names.flatMap (entriesTo x topicMap) := by
  induction names with
  | nil => rfl
  | cons name names ih =>
    rw [← List.singleton_append, subscriptionsAt_append, entriesFor_append, ih]
    simp [subscriptionsAt, entriesFor, entriesTo, Function.comp_def]

theorem OwnAlike.route (h : OwnAlike a b s t) {m k : PsMsg} (hbody : m.body = k.body) (topic : Str) :
    (entriesFor a (route s.topicMap m topic)).map SubscriberList.terms =
      (entriesFor b (route t.topicMap k topic)).map SubscriberList.terms := by
  have hvisited : visited m topic = visited k topic := by
    rw [visited, visited, nonrecursive_of_body hbody]
  rw [PubSub.route, PubSub.route, entriesFor_route, entriesFor_route, hvisited,
    List.map_flatMap, List.map_flatMap]
  congr 1
  funext name
  exact h.entries name

variable {msg : MsgId} {n n' : ℕ} {m k : PsMsg} {topic : Str} {as bs : List Attempt}
  {s₀ s₁ t₀ t₁ : Bus Q}

theorem Published.entriesAt (h : Published s msg n s' m topic as s₀ s₁) (hok : s.Ok) :
    entriesAt s'.topicMap = entriesAt s.topicMap := (h.edit hok).entriesAt

theorem Published.subsOf (h : Published s msg n s' m topic as s₀ s₁) :
    subsOf s'.subscribers = subsOf s.subscribers := by
  have hshape := h.pushes.sameShape.subsOf
  obtain ⟨ms, -, rfl⟩ := h.release
  rw [hshape, h.stickyStep.subscribers]

theorem Alike.publish (ha : Alike s t) (h : Published s msg n s' m topic as s₀ s₁)
    (h' : Published t msg n' t' k topic bs t₀ t₁) : Alike s' t' := by
  have hbody := ha.content msg m k h.get h'.get
  refine ⟨h.ok ha.ok, h'.ok ha.ok', ?_, ?_, ha.bodies h.content h'.content, ?_⟩
  · rw [h.stickyAt ha.ok, h'.stickyAt ha.ok', ha.sticky, PsMsg.retained, PsMsg.retained,
      sticky_of_body hbody]
  · rw [h.content.next, h'.content.next, ha.next]
  · rw [h.uuidCtr, h'.uuidCtr, ha.uuidCtr]

theorem OwnAlike.publish (hab : OwnAlike a b s t) (ha : Alike s t)
    (h : Published s msg n s' m topic as s₀ s₁) (h' : Published t msg n' t' k topic bs t₀ t₁) :
    OwnAlike a b s' t' := by
  have hroute := hab.route (ha.content msg m k h.get h'.get) topic
  have hoffered : ∀ (u : Bus Q) (x : SubId) (sls : List SubscriberList),
      ((u.subscribers.get x).bind fun S => S.offered msg sls).map PsSubscriber.own =
        ((u.subscribers.get x).map PsSubscriber.own).bind fun S =>
          S.offered msg (sls.map SubscriberList.terms) := by
    intro u x sls
    rw [map_own_offered, Option.bind_map]
    congr 1
    funext S
    exact (offered_rename 0).symm
  refine ⟨?_, fun name => ?_, ?_⟩
  · rw [h.record a, h'.record b, hoffered, hoffered, hab.record, hroute]
  · rw [entriesTo_congr (h.entriesAt ha.ok), entriesTo_congr (h'.entriesAt ha.ok')]
    exact hab.entries name
  · rw [psNumSubs_congr h.subsOf, psNumSubs_congr h'.subsOf]
    exact hab.count

theorem psPublish_alike (ha : Alike s t) (h : psPublish s (some msg) = some (n, s'))
    (h' : psPublish t (some msg) = some (n', t')) :
    Alike s' t' ∧ ∀ a b, OwnAlike a b s t → OwnAlike a b s' t' := by
  obtain ⟨m, topic, as, s₀, s₁, hp⟩ := psPublish_published ha.ok.names ha.ok.alive h
  obtain ⟨k, topic', bs, t₀, t₁, hp'⟩ := psPublish_published ha.ok'.names ha.ok'.alive h'
  obtain rfl : topic = topic' := by
    obtain ⟨mt, hmt, rfl⟩ := hp.topic_eq
    obtain ⟨kt, hkt, rfl⟩ := hp'.topic_eq
    rw [topic_of_body (ha.content msg m k hp.get hp'.get), hkt] at hmt
    rw [Option.some.inj hmt]
  exact ⟨ha.publish hp hp', fun a b hab => hab.publish ha hp hp'⟩

theorem psCleanSticky_alike {pre : Str} (ha : Alike s t) (h : psCleanSticky s pre = some s')
    (h' : psCleanSticky t pre = some t') :
    Alike s' t' ∧ ∀ a b, OwnAlike a b s t → OwnAlike a b s' t' := by
  have hc := psCleanSticky_cleaned ha.ok.names ha.ok.alive h
  have hc' := psCleanSticky_cleaned ha.ok'.names ha.ok'.alive h'
  have hok : s'.Ok := by
    refine ⟨hc.names, hc.alive, ?_, hc.statOk ha.ok.statOk⟩
    rw [hc.entriesOf, hc.subscribers]
    exact ha.ok.links
  have hok' : t'.Ok := by
    refine ⟨hc'.names, hc'.alive, ?_, hc'.statOk ha.ok'.statOk⟩
    rw [hc'.entriesOf, hc'.subscribers]
    exact ha.ok'.links
  refine ⟨⟨hok, hok', ?_, ?_, ha.bodies hc.content hc'.content, ?_⟩, fun a b hab =>
    hab.of_same hc.subscribers hc'.subscribers hc.entriesAt hc'.entriesAt⟩
  · funext name
    apply Option.ext
    intro msg
    rw [hc.sticky, hc'.sticky, ha.sticky]
  · rw [hc.content.next, hc'.content.next, ha.next]
  · rw [hc.uuidCtr, hc'.uuidCtr, ha.uuidCtr]

end Publish

section Call
variable {s s' t t' : Bus Q} {msg : MsgId} {timeout : Int64} {ret ret' : Option MsgId}

/-- Around its publish, a call has only to do with its temporary subscriber. -/
theorem Called.apart {s₁ s₂ s₃ s₄ : Bus Q} {su : SubId} {n : ℕ}
    (h : Called s msg timeout ret s' s₁ s₂ s₃ s₄ su n) (hok : s.Ok) {x : SubId} (hx : x ≠ su) :
    Apart x s₁ s₂ ∧ Apart x s₃ s' := by
  obtain ⟨hok₁, -, -, hok₄, -⟩ := h.oks hok
  obtain ⟨rfl, -⟩ := psNewSubscriber_eq_some h.new
  have hfree := psFreeSubscriber_apart hx hok₄ h.free
  refine ⟨psNewSubscriber_apart hx hok₁ h.new, ?_⟩
  rcases h.get with ⟨-, -, rfl⟩ | ⟨-, hget⟩
  · exact hfree
  · exact (psGet_apart hx hget).trans hfree

/-- A call makes no subscriber that outlives it. -/
theorem Called.dead {s₁ s₂ s₃ s₄ : Bus Q} {su : SubId} {n : ℕ}
    (h : Called s msg timeout ret s' s₁ s₂ s₃ s₄ su n) (hok : s.Ok) {x : SubId}
    (hx : s.subscribers.get x = none) : s'.subscribers.get x = none := by
  obtain ⟨-, hok₂, -, hok₄, -⟩ := h.oks hok
  by_cases hsu : x = su
  · rw [hsu]
    exact psFreeSubscriber_dead hok₄ h.free
  · obtain ⟨hnew, hend⟩ := h.apart hok hsu
    obtain ⟨m, topic, as, t₀, t₁, hp⟩ := psPublish_published hok₂.names hok₂.alive h.publish
    obtain ⟨ms, -, rfl⟩ := h.counter
    rw [hend.record, hp.record, hnew.record, hx, Option.bind_none]

theorem psCall_alike (ha : Alike s t) (h : psCall s msg timeout = some (ret, s'))
    (h' : psCall t msg timeout = some (ret', t')) :
    Alike s' t' ∧ ∀ a b, OwnAlike a b s t → OwnAlike a b s' t' := by
  obtain ⟨s₁, s₂, s₃, s₄, su, n, hc⟩ := psCall_called h
  obtain ⟨t₁, t₂, t₃, t₄, su', n', hc'⟩ := psCall_called h'
  obtain ⟨hok₁, hok₂, hok₃, -, hokEnd⟩ := hc.oks ha.ok
  obtain ⟨hok₁', hok₂', hok₃', -, hokEnd'⟩ := hc'.oks ha.ok'
  obtain ⟨ms, hms, hs₁⟩ := hc.counter
  obtain ⟨ms', hms', ht₁⟩ := hc'.counter
  obtain ⟨m, hm, rfl⟩ := psMsgSetRtopic_eq_some hms
  obtain ⟨k, hk, rfl⟩ := psMsgSetRtopic_eq_some hms'
  have ha₁ : Alike s₁ t₁ := by
    rw [hs₁, ht₁, ha.uuidCtr]
    exact ha.modify (body_setRtopic (ha.content msg m k hm hk) _)
  have hother := hc.apart ha.ok (Nat.succ_ne_self su)
  have hother' := hc'.apart ha.ok' (Nat.succ_ne_self su')
  have ha₂ := ha₁.calms hok₂ hok₂' hother.1.toCalm hother'.1.toCalm
  obtain ⟨ha₃, hown₃⟩ := psPublish_alike ha₂ hc.publish hc'.publish
  refine ⟨ha₃.calms hokEnd hokEnd' hother.2.toCalm hother'.2.toCalm, fun a b hab => ?_⟩
  cases hS : s.subscribers.get a with
  | none => exact .of_dead hokEnd hokEnd' (hc.dead ha.ok hS) (hc'.dead ha.ok' (hab.dead hS))
  | some S =>
    obtain ⟨T, hT, -⟩ := hab.get hS
    obtain ⟨hsu, -⟩ := psNewSubscriber_eq_some hc.new
    obtain ⟨hsu', -⟩ := psNewSubscriber_eq_some hc'.new
    -- both lived before the temporary subscribers were made
    have hne : a ≠ su := by
      rw [hsu, hs₁]
      exact Nat.ne_of_lt (Cells.lt_next hS)
    have hne' : b ≠ su' := by
      rw [hsu', ht₁]
      exact Nat.ne_of_lt (Cells.lt_next hT)
    have hab₁ : OwnAlike a b s₁ t₁ :=
      hab.of_same (by rw [hs₁]) (by rw [ht₁]) (by rw [hs₁]) (by rw [ht₁])
    obtain ⟨hnew, hend⟩ := hc.apart ha.ok hne
    obtain ⟨hnew', hend'⟩ := hc'.apart ha.ok' hne'
    exact (hown₃ a b (hab₁.aparts hnew hnew')).aparts hend hend'

end Call

end PubSub
