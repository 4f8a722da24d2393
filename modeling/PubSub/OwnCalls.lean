import PubSub.Alike

/-! The calls on one subscriber in two states that it cannot tell apart: they return
the same, and it cannot tell the states after them apart either. Its subscriptions
are without `child_sticky`, whose replay is in the order of the topics' cells. -/

namespace PubSub

open Lib Bus

variable {Q : Type → Type} [PsQueue Q] [LawfulPsQueue Q]

/-- The two states are alike, and alike for the two subscribers. -/
def AlikeFor (a b : SubId) (s t : Bus Q) : Prop := Alike s t ∧ OwnAlike a b s t

section Read
variable {s s' t t' : Bus Q} {a b : SubId} {n n' : ℕ}

/-- The two queues, where the subscribers live. -/
theorem OwnAlike.queue (h : OwnAlike a b s t) {S T : PsSubscriber Q}
    (hS : s.subscribers.get a = some S) (hT : t.subscribers.get b = some T) : S.q = T.q := by
  obtain ⟨T', hT', hown, -⟩ := h.get hS
  obtain rfl : T = T' := Option.some.inj (hT.symm.trans hT')
  exact (congrArg PsSubscriber.q hown : S.own.q = T.own.q)

theorem psGet_alike {timeout : Int64} {msg msg' : Option MsgId} (h : AlikeFor a b s t)
    (hs : psGet s a timeout = some (msg, s')) (ht : psGet t b timeout = some (msg', t')) :
    msg = msg' ∧ AlikeFor a b s' t' := by
  have hok := (psGet_ok h.1.ok hs).1
  have hok' := (psGet_ok h.1.ok' ht).1
  have hcalm := (psGet_sameShape hs).calm
  have hcalm' := (psGet_sameShape ht).calm
  obtain ⟨S, q, hS, hq, rfl⟩ := psGet_eq_some.mp hs
  obtain ⟨T, q', hT, hq', rfl⟩ := psGet_eq_some.mp ht
  rw [h.2.queue hS hT, hq'] at hq
  cases hq
  exact ⟨rfl, h.1.calms hok hok' hcalm hcalm', h.2.of_update (fun R => { R with q := q })
    (fun _ => rfl) (fun _ => rfl) hS hT rfl rfl rfl rfl⟩

/-- The rounds of `ps_flush` depend on the queue alone. -/
theorem flushLoop_alike {fuel k : ℕ} {S T : PsSubscriber Q} (hS : s.subscribers.get a = some S)
    (hT : t.subscribers.get b = some T) (hq : S.q = T.q)
    (hs : flushLoop a fuel k s = some (n, s')) (ht : flushLoop b fuel k t = some (n', t')) :
    n = n' ∧ ∃ q, s'.subscribers = s.subscribers.modify a (fun _ => { S with q := q }) ∧
      t'.subscribers = t.subscribers.modify b fun _ => { T with q := q } := by
  induction fuel generalizing k s t S T with
  | zero => cases hs
  | succ fuel ih =>
    simp only [flushLoop, Option.bind_eq_bind, Option.bind_eq_some_iff] at hs ht
    obtain ⟨⟨msg, s₁⟩, hget, hs⟩ := hs
    obtain ⟨⟨msg', t₁⟩, hget', ht⟩ := ht
    obtain ⟨S₁, q, hS₁, hpull, rfl⟩ := psGet_eq_some.mp hget
    obtain ⟨T₁, q', hT₁, hpull', rfl⟩ := psGet_eq_some.mp hget'
    obtain rfl : S = S₁ := Option.some.inj (hS.symm.trans hS₁)
    obtain rfl : T = T₁ := Option.some.inj (hT.symm.trans hT₁)
    rw [hq, hpull'] at hpull
    obtain ⟨rfl, rfl⟩ := Prod.mk.inj (Option.some.inj hpull)
    cases msg' with
    | none =>
      cases hs
      cases ht
      exact ⟨rfl, q', rfl, rfl⟩
    | some msg =>
      obtain ⟨ms, -, hs⟩ := Option.bind_eq_some_iff.mp hs
      obtain ⟨ms', -, ht⟩ := Option.bind_eq_some_iff.mp ht
      have hS₂ : (s.subscribers.modify a fun _ => { S with q := q' }).get a =
          some { S with q := q' } := by rw [Cells.get_modify_self, hS, Option.map_some]
      have hT₂ : (t.subscribers.modify b fun _ => { T with q := q' }).get b =
          some { T with q := q' } := by rw [Cells.get_modify_self, hT, Option.map_some]
      have hq₂ : ({ S with q := q' } : PsSubscriber Q).q = ({ T with q := q' } : PsSubscriber Q).q :=
        rfl
      obtain ⟨hn, q, hsubs, hsubs'⟩ := ih hS₂ hT₂ hq₂ hs ht
      refine ⟨hn, q, ?_, ?_⟩
      · rw [hsubs]
        simp only [Bus.modifySubscriber, Cells.modify_modify_const]
      · rw [hsubs']
        simp only [Bus.modifySubscriber, Cells.modify_modify_const]

theorem psFlush_alike (h : AlikeFor a b s t) (hs : psFlush s a = some (n, s'))
    (ht : psFlush t b = some (n', t')) : n = n' ∧ AlikeFor a b s' t' := by
  obtain ⟨S, q, ms, hS, hf⟩ := psFlush_flushed hs
  obtain ⟨T, q', ms', hT, hf'⟩ := psFlush_flushed ht
  have hshape := hf.sameShape hS
  have hshape' := hf'.sameShape hT
  have hok : s'.Ok := h.1.ok.of_sameShape hshape (by rw [hf.state]; exact hf.statOk h.1.ok.statOk)
  have hok' : t'.Ok :=
    h.1.ok'.of_sameShape hshape' (by rw [hf'.state]; exact hf'.statOk h.1.ok'.statOk)
  have hqueue := h.2.queue hS hT
  simp only [psFlush, hS, hT, Option.bind_eq_bind, Option.bind_some, hqueue] at hs ht
  obtain ⟨hn, q₁, hsubs, hsubs'⟩ := flushLoop_alike hS hT hqueue hs ht
  exact ⟨hn, h.1.calms hok hok' hshape.calm hshape'.calm,
    h.2.of_update (fun R => { R with q := q₁ }) (fun _ => rfl) (fun _ => rfl) hS hT hsubs hsubs'
      hshape.topicMap hshape'.topicMap⟩

/-- A change of the records that leaves their queues and lists alone. -/
theorem AlikeFor.of_update {S T : PsSubscriber Q} {cbs cbs' : List CallbackCall} (h : AlikeFor a b s t)
    (f : PsSubscriber Q → PsSubscriber Q) (hf : ∀ R, (f R).own = f R.own)
    (hsubs : ∀ R, (f R).subs = R.subs) (hS : s.subscribers.get a = some S)
    (hT : t.subscribers.get b = some T) :
    AlikeFor a b
      { s with subscribers := s.subscribers.modify a fun _ => f S, callbacks := cbs }
      { t with subscribers := t.subscribers.modify b fun _ => f T, callbacks := cbs' } := by
  have hshape := modifySubscriber_sameShape hS (hsubs S)
  have hshape' := modifySubscriber_sameShape hT (hsubs T)
  have hok := h.1.ok.of_sameShape hshape h.1.ok.statOk
  have hok' := h.1.ok'.of_sameShape hshape' h.1.ok'.statOk
  have halike := h.1.calms hok hok' hshape.calm hshape'.calm
  refine ⟨⟨⟨hok.names, hok.alive, hok.links, hok.statOk⟩, ⟨hok'.names, hok'.alive, hok'.links,
    hok'.statOk⟩, halike.sticky, halike.next, halike.content, halike.uuidCtr⟩, ?_⟩
  exact h.2.of_update f hf hsubs hS hT rfl rfl rfl rfl

theorem psOverflow_alike {r r' : ℤ} (h : AlikeFor a b s t) (hs : psOverflow s a = some (r, s'))
    (ht : psOverflow t b = some (r', t')) : r = r' ∧ AlikeFor a b s' t' := by
  obtain ⟨S, hS, rfl, rfl⟩ := psOverflow_eq_some hs
  obtain ⟨T, hT, rfl, rfl⟩ := psOverflow_eq_some ht
  obtain ⟨T', hT', hown, -⟩ := h.2.get hS
  obtain rfl : T = T' := Option.some.inj (hT.symm.trans hT')
  have hover : S.overflow = T.overflow :=
    (congrArg PsSubscriber.overflow hown : S.own.overflow = T.own.overflow)
  rw [hover]
  exact ⟨rfl, h.of_update (fun R => { R with overflow := 0 }) (fun _ => rfl) (fun _ => rfl) hS hT⟩

theorem psSetNewMsgCb_alike {cb : Option Callback} (h : AlikeFor a b s t)
    (hs : psSetNewMsgCb s a cb = some s') (ht : psSetNewMsgCb t b cb = some t') :
    AlikeFor a b s' t' := by
  obtain ⟨S, cbs, hS, rfl⟩ := psSetNewMsgCb_eq_some hs
  obtain ⟨T, cbs', hT, rfl⟩ := psSetNewMsgCb_eq_some ht
  exact h.of_update (fun R => { R with newMsgCb := cb }) (fun _ => rfl) (fun _ => rfl) hS hT

theorem psSetNonEmptyCb_alike {cb : Option Callback} (h : AlikeFor a b s t)
    (hs : psSetNonEmptyCb s a cb = some s') (ht : psSetNonEmptyCb t b cb = some t') :
    AlikeFor a b s' t' := by
  obtain ⟨S, cbs, hS, rfl⟩ := psSetNonEmptyCb_eq_some hs
  obtain ⟨T, cbs', hT, rfl⟩ := psSetNonEmptyCb_eq_some ht
  exact h.of_update (fun R => { R with nonEmptyCb := cb }) (fun _ => rfl) (fun _ => rfl) hS hT

theorem psWaiting_alike (h : AlikeFor a b s t) (hs : psWaiting s a = some n)
    (ht : psWaiting t b = some n') : n = n' := by
  rw [psWaiting_eq_own, h.2.record, ← psWaiting_eq_own, ht] at hs
  exact (Option.some.inj hs).symm

end Read

/-! ### Subscriptions -/

/-- The message that a subscription without `child_sticky` is sent. -/
def replayedOne (topicMap : Cells TopicMap) (topic : Str) (flags : PsSubFlags) : Option MsgId :=
  if flags.noSticky then none else stickyAt topicMap topic

/-- A subscriber after its replay. -/
def PsSubscriber.sent (S : PsSubscriber Q) (priority : UInt8) : Option MsgId → Option (PsSubscriber Q)
  | none => some S
  | some msg => S.offered msg [⟨0, false, false, priority.toInt8⟩]

section Entries
variable {x : SubId} {T T' : Cells TopicMap} {topic : Str} {sl : SubscriberList}

theorem OwnAlike.listed {s t : Bus Q} {a b : SubId} (h : OwnAlike a b s t) (name : Str) :
    a ∈ (entriesAt s.topicMap name).map SubscriberList.su ↔
      b ∈ (entriesAt t.topicMap name).map SubscriberList.su := by
  rw [mem_su_iff_entriesTo, mem_su_iff_entriesTo, Ne, Ne, ← List.map_eq_nil_iff, h.entries name,
    List.map_eq_nil_iff]

theorem entriesTo_snoc (hsl : sl.su = x)
    (h : entriesAt T' = Function.update (entriesAt T) topic (entriesAt T topic ++ [sl])) (name : Str) :
    entriesTo x T' name = if name = topic then entriesTo x T name ++ [sl] else entriesTo x T name := by
  rw [entriesTo, h, Function.update_apply]
  split
  case isTrue hname =>
    rw [List.filter_append, List.filter_cons_of_pos (by simpa using hsl), hname]
    rfl
  case isFalse => rfl

theorem filter_others_self (sls : List SubscriberList) :
    (others x sls).filter (fun sl => sl.su = x) = [] := by
  rw [List.filter_eq_nil_iff]
  intro sl hsl
  simpa using (mem_others.mp hsl).2

theorem entriesTo_removed
    (h : entriesAt T' = Function.update (entriesAt T) topic (others x (entriesAt T topic)))
    (name : Str) : entriesTo x T' name = if name = topic then [] else entriesTo x T name := by
  rw [entriesTo, h, Function.update_apply]
  split
  case isTrue hname => exact filter_others_self _
  case isFalse => rfl

theorem entriesTo_removed_all (h : ∀ name, entriesAt T' name = others x (entriesAt T name))
    (name : Str) : entriesTo x T' name = [] := by
  rw [entriesTo, h]
  exact filter_others_self _

theorem get_modify_own {c : Cells (PsSubscriber Q)} {S N : PsSubscriber Q} (hS : c.get x = some S)
    (hN : N.own = S.own) :
    ((c.modify x fun _ => N).get x).map PsSubscriber.own = (c.get x).map PsSubscriber.own := by
  rw [Cells.get_modify_self, hS, Option.map_some, Option.map_some, Option.map_some, hN]

end Entries

section Subscribe
variable {s s' t t' : Bus Q} {a b su : SubId} {topic : Str} {flags : PsSubFlags}
  {pflags : Option PsSubFlags} {r r' : ℤ} {n n' : ℕ}

theorem replayed_toList (hchild : flags.childSticky = false) (T : Cells TopicMap) (topic : Str) :
    replayed T topic flags = (replayedOne T topic flags).toList := by
  unfold replayed replayedOne
  split
  · rfl
  · rw [if_neg (by simp [hchild])]

/-- A subscription without `child_sticky` sends its subscriber one message at most. -/
theorem Subscribed.record {s₁ : Bus Q} {ps : List Push}
    (h : Subscribed s su topic flags s' s₁ ps) (hchild : flags.childSticky = false) :
    (s'.subscribers.get su).map PsSubscriber.own =
      ((s.subscribers.get su).map PsSubscriber.own).bind fun S =>
        S.sent flags.priority (replayedOne s.topicMap topic flags) := by
  obtain ⟨S, tm, hS, hsubs⟩ := h.subscribers
  have hreplayed : replayed s₁.topicMap topic flags =
      (replayedOne s.topicMap topic flags).toList := by
    rw [replayed_toList hchild, replayedOne, h.quiet.sticky]
    rfl
  have hN : s₁.subscribers.get su = some { S with subs := S.subs ++ [tm] } := by
    rw [hsubs, Cells.get_modify_self, hS, Option.map_some]
  rw [hS, Option.map_some, Option.bind_some]
  cases hmsg : replayedOne s.topicMap topic flags with
  | none =>
    rw [hmsg] at hreplayed
    obtain ⟨-, rfl⟩ := h.of_nil hreplayed
    rw [hN]
    rfl
  | some msg =>
    rw [hmsg] at hreplayed
    obtain ⟨ret, -, hstep⟩ := h.of_singleton hreplayed
    have hrecord : s'.subscribers.get su = PsSubscriber.offered { S with subs := S.subs ++ [tm] } msg
        [⟨0, false, false, flags.priority.toInt8⟩] := hstep.record hN rfl (by simp)
    rw [hrecord, offered_own]
    rfl

theorem psSubscribeFlags_alike (h : AlikeFor a b s t)
    (hchild : (subFlags topic pflags).childSticky = false)
    (hs : psSubscribeFlags s a topic pflags = some (r, s'))
    (ht : psSubscribeFlags t b topic pflags = some (r', t')) : r = r' ∧ AlikeFor a b s' t' := by
  have hlisted := h.2.listed (cutFlags topic)
  have hlaws := psSubscribeFlags_laws h.1.ok hs
  have hlaws' := psSubscribeFlags_laws h.1.ok' ht
  have hquiet := psSubscribeFlags_quiet h.1.ok hs
  have hquiet' := psSubscribeFlags_quiet h.1.ok' ht
  rcases psSubscribeFlags_cases h.1.ok hs with ⟨rfl, hin, rfl⟩ | ⟨rfl, s₁, ps, hsub⟩
  · rw [psSubscribeFlags_listed h.1.ok' pflags (hlisted.mp hin)] at ht
    cases ht
    exact ⟨rfl, h⟩
  · obtain ⟨-, hentries⟩ := hlaws.2.2 hsub.fresh
    obtain ⟨rfl, hentries'⟩ := hlaws'.2.2 (mt hlisted.mpr hsub.fresh)
    rcases psSubscribeFlags_cases h.1.ok' ht with ⟨hr, -⟩ | ⟨-, t₁, ps', hsub'⟩
    · cases hr
    refine ⟨rfl, h.1.calms hquiet.1.ok hquiet'.1.ok hquiet.1.calm hquiet'.1.calm, ?_,
      fun name => ?_, ?_⟩
    · rw [hsub.record hchild, hsub'.record hchild, h.2.record, replayedOne, replayedOne, h.1.sticky]
    · rw [entriesTo_snoc rfl hentries, entriesTo_snoc rfl hentries']
      split
      · rw [List.map_append, List.map_append, h.2.entries name]
        rfl
      · exact h.2.entries name
    · rw [hlaws.1, hlaws'.1, h.2.count]

theorem psUnsubscribe_record (hok : s.Ok) (h : psUnsubscribe s su topic = some (r, s')) :
    (s'.subscribers.get su).map PsSubscriber.own = (s.subscribers.get su).map PsSubscriber.own := by
  rcases psUnsubscribe_cases hok h with ⟨-, -, rfl⟩ | ⟨-, -, S, tm, hS, -, hsubs, -⟩
  · rfl
  · rw [hsubs]
    exact get_modify_own hS rfl

theorem psUnsubscribe_alike (h : AlikeFor a b s t) (hs : psUnsubscribe s a topic = some (r, s'))
    (ht : psUnsubscribe t b topic = some (r', t')) : r = r' ∧ AlikeFor a b s' t' := by
  have hlisted := h.2.listed (cutFlags topic)
  have hlaws := psUnsubscribe_laws h.1.ok hs
  have hlaws' := psUnsubscribe_laws h.1.ok' ht
  have hquiet := psUnsubscribe_quiet h.1.ok hs
  have hquiet' := psUnsubscribe_quiet h.1.ok' ht
  have hrecord := psUnsubscribe_record h.1.ok hs
  have hrecord' := psUnsubscribe_record h.1.ok' ht
  by_cases hin : a ∈ (entriesAt s.topicMap (cutFlags topic)).map SubscriberList.su
  · obtain ⟨rfl, hentries, -⟩ := hlaws.2.2.2 hin
    obtain ⟨rfl, hentries', -⟩ := hlaws'.2.2.2 (hlisted.mp hin)
    refine ⟨rfl, h.1.calms hquiet.1.ok hquiet'.1.ok hquiet.1.calm hquiet'.1.calm, ?_,
      fun name => ?_, ?_⟩
    · rw [hrecord, hrecord', h.2.record]
    · rw [entriesTo_removed hentries, entriesTo_removed hentries']
      split
      · rfl
      · exact h.2.entries name
    · -- both had one more topic before
      have hcount := h.2.count
      rw [hlaws.1, hlaws'.1] at hcount
      exact Option.map_injective (fun i j hij => Nat.add_right_cancel hij) hcount
  · obtain ⟨rfl, rfl⟩ := hlaws.2.2.1 hin
    obtain ⟨rfl, rfl⟩ := hlaws'.2.2.1 (mt hlisted.mpr hin)
    exact ⟨rfl, h⟩

/-- A list of topics, one by one. -/
theorem countOks_alike {f g : Bus Q → Str → Option (ℤ × Bus Q)} {topics : List Str}
    (hfg : ∀ s s' t t' r r', ∀ topic ∈ topics, AlikeFor a b s t → f s topic = some (r, s') →
      g t topic = some (r', t') → r = r' ∧ AlikeFor a b s' t') (h : AlikeFor a b s t)
    (hs : countOks f topics s = some (n, s')) (ht : countOks g topics t = some (n', t')) :
    n = n' ∧ AlikeFor a b s' t' := by
  induction topics generalizing s t n n' with
  | nil =>
    cases hs
    cases ht
    exact ⟨rfl, h⟩
  | cons topic topics ih =>
    simp only [countOks, Option.bind_eq_bind, Option.bind_eq_some_iff] at hs ht
    obtain ⟨⟨r, s₁⟩, hf, ⟨k, s₂⟩, hs, heq⟩ := hs
    obtain ⟨⟨r', t₁⟩, hg, ⟨k', t₂⟩, ht, heq'⟩ := ht
    cases heq
    cases heq'
    obtain ⟨rfl, h₁⟩ := hfg s s₁ t t₁ r r' topic (by simp) h hf hg
    obtain ⟨rfl, h₂⟩ := ih (fun s s' t t' r r' topic' hmem => hfg s s' t t' r r' topic' (by simp [hmem]))
      h₁ hs ht
    exact ⟨rfl, h₂⟩

theorem psSubscribeMany_alike {subs : Option (List Str)} (h : AlikeFor a b s t)
    (hchild : ((subs.getD []).any fun topic => (subFlags topic none).childSticky) = false)
    (hs : psSubscribeMany s a subs = some (n, s')) (ht : psSubscribeMany t b subs = some (n', t')) :
    n = n' ∧ AlikeFor a b s' t' := by
  cases subs with
  | none =>
    cases hs
    cases ht
    exact ⟨rfl, h⟩
  | some topics =>
    apply countOks_alike (fun s s' t t' r r' topic hmem h hs ht => ?_) h hs ht
    exact psSubscribeFlags_alike h (by simpa using List.any_eq_false.mp hchild topic hmem) hs ht

theorem psUnsubscribeMany_alike {subs : Option (List Str)} (h : AlikeFor a b s t)
    (hs : psUnsubscribeMany s a subs = some (n, s'))
    (ht : psUnsubscribeMany t b subs = some (n', t')) : n = n' ∧ AlikeFor a b s' t' := by
  cases subs with
  | none =>
    cases hs
    cases ht
    exact ⟨rfl, h⟩
  | some topics =>
    apply countOks_alike (fun s s' t t' r r' topic _ h hs ht => ?_) h hs ht
    exact psUnsubscribe_alike h hs ht

theorem psUnsubscribeAll_alike (h : AlikeFor a b s t) (hs : psUnsubscribeAll s a = some (n, s'))
    (ht : psUnsubscribeAll t b = some (n', t')) : n = n' ∧ AlikeFor a b s' t' := by
  obtain ⟨S, U, hS, rfl, rfl, -, hentries, hq⟩ := psUnsubscribeAll_eq_some h.1.ok hs
  obtain ⟨T, V, hT, rfl, rfl, -, hentries', hq'⟩ := psUnsubscribeAll_eq_some h.1.ok' ht
  obtain ⟨T', hT', hown, hlen⟩ := h.2.get hS
  obtain rfl : T = T' := Option.some.inj (hT.symm.trans hT')
  refine ⟨hlen, h.1.calms hq.ok hq'.ok hq.calm hq'.calm, ?_, fun name => ?_, ?_⟩
  · simp only [Cells.get_modify_self, hS, hT, Option.map_some, Option.some.injEq]
    exact hown
  · rw [entriesTo_removed_all hentries, entriesTo_removed_all hentries']
  · simp [psNumSubs, hS, hT]

theorem psFreeSubscriber_alike (h : AlikeFor a b s t) (hs : psFreeSubscriber s a = some s')
    (ht : psFreeSubscriber t b = some t') : AlikeFor a b s' t' := by
  have hq := psFreeSubscriber_quiet h.1.ok hs
  have hq' := psFreeSubscriber_quiet h.1.ok' ht
  exact ⟨h.1.calms hq.ok hq'.ok hq.calm hq'.calm, .of_dead hq.ok hq'.ok
    (psFreeSubscriber_dead h.1.ok hs) (psFreeSubscriber_dead h.1.ok' ht)⟩

end Subscribe

end PubSub
