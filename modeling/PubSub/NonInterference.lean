import PubSub.Calls
import PubSub.Lib.Unwinding
import PubSub.OwnCalls

/-! Subscribers do not interfere. Two runs may differ in all that is done with the
other subscribers: which there are, their queues, subscriptions, reads and ends,
and the references that are taken and given up. If they agree in the publishes, in
the other calls on messages and in what is done with one subscriber, that
subscriber gets the same. -/

namespace PubSub

open Lib Bus

variable {Q : Type → Type} [PsQueue Q] [LawfulPsQueue Q]

/-- The same call on the subscriber `x`. -/
def Op.as (x : SubId) : Op → Op
  | .freeSubscriber _ => .freeSubscriber x
  | .setNewMsgCb _ cb => .setNewMsgCb x cb
  | .setNonEmptyCb _ cb => .setNonEmptyCb x cb
  | .get _ timeout => .get x timeout
  | .flush _ => .flush x
  | .waiting _ => .waiting x
  | .overflow _ => .overflow x
  | .numSubs _ => .numSubs x
  | .subscribe _ topic => .subscribe x topic
  | .subscribeFlags _ topic flags => .subscribeFlags x topic flags
  | .subscribeMany _ subs => .subscribeMany x subs
  | .unsubscribe _ topic => .unsubscribe x topic
  | .unsubscribeMany _ subs => .unsubscribeMany x subs
  | .unsubscribeAll _ => .unsubscribeAll x
  | op => op

/-- The same result, for a subscriber at `x`. -/
def Ret.as (x : SubId) : Ret → Ret
  | .subscriber _ => .subscriber x
  | r => r

/-- The calls that make or change messages, publish them, or clear sticky ones. -/
def Op.shared : Op → Bool
  | .newMsg _ _ _ | .dupMsg _ | .msgSetTopic _ _ | .msgSetRtopic _ _ | .msgSetValue _ _ _
  | .publish _ | .cleanSticky _ | .call _ _ => true
  | _ => false

/-- A call that may subscribe with `child_sticky`. -/
def Op.childSticky : Op → Bool
  | .newSubscriber _ subs | .subscribeMany _ subs =>
    (subs.getD []).any fun topic => (subFlags topic none).childSticky
  | .subscribe _ topic => (subFlags topic none).childSticky
  | .subscribeFlags _ topic flags => (subFlags topic flags).childSticky
  | _ => false

/-- A call on the subscriber `a`, or the one that made it. -/
def concerns (a : SubId) (e : Label) : Bool := e.1.subscriber = some a || e.2 = .subscriber a

/-- What the runs have to agree in: the shared calls and those on `a`. -/
def inputOf (a : SubId) (e : Label) : Option Op :=
  if e.1.shared || concerns a e then some (e.1.as 0) else none

/-- What is seen of `a`: the calls on it and their results. -/
def outputOf (a : SubId) (e : Label) : Option Label :=
  if concerns a e then some (e.1.as 0, e.2.as 0) else none

section Labels
variable {a b x : SubId} {op op' : Op} {e f : Label}

theorem Op.as_of_subscriber_eq_none (h : op.subscriber = none) (x : SubId) : op.as x = op := by
  cases op <;> first | rfl | cases h

theorem Op.as_self (h : op.subscriber = some a) : op.as a = op := by
  cases op <;> cases h <;> rfl

theorem Op.as_as (x y : SubId) (op : Op) : (op.as x).as y = op.as y := by
  cases op <;> rfl

theorem Op.subscriber_of_shared (h : op.shared = true) : op.subscriber = none := by
  cases op <;> first | rfl | cases h

theorem Op.shared_as (x : SubId) (op : Op) : (op.as x).shared = op.shared := by
  cases op <;> rfl

theorem Op.childSticky_as (x : SubId) (op : Op) : (op.as x).childSticky = op.childSticky := by
  cases op <;> rfl

theorem Op.isSome_subscriber_as (x : SubId) (op : Op) :
    (op.as x).subscriber.isSome = op.subscriber.isSome := by
  cases op <;> rfl

theorem Op.isSome_subscriber_eq (h : op.as 0 = op'.as 0) :
    op.subscriber.isSome = op'.subscriber.isSome := by
  rw [← Op.isSome_subscriber_as 0, h, Op.isSome_subscriber_as]

/-- Calls that are the same but for the subscribers they are on. -/
theorem Op.eq_as (h : op.as 0 = op'.as 0) (hb : op'.subscriber = some b) : op' = op.as b := by
  rw [← Op.as_self hb, ← Op.as_as 0 b op', ← h, Op.as_as]

theorem Op.shared_eq (h : op.as 0 = op'.as 0) : op.shared = op'.shared := by
  rw [← Op.shared_as 0, h, Op.shared_as]

theorem concerns_iff : concerns a e = true ↔ e.1.subscriber = some a ∨ e.2 = .subscriber a := by
  simp [concerns]

theorem inputOf_eq_none : inputOf a e = none ↔ e.1.shared = false ∧ concerns a e = false := by
  rw [inputOf]
  split
  case isTrue h =>
    refine ⟨nofun, fun hnot => ?_⟩
    rw [hnot.1, hnot.2] at h
    cases h
  case isFalse h => simpa using h

theorem inputOf_eq_some (h : inputOf a e = some op) :
    (e.1.shared = true ∨ concerns a e = true) ∧ e.1.as 0 = op := by
  unfold inputOf at h
  split at h
  case isTrue hvis =>
    cases h
    exact ⟨by simpa using hvis, rfl⟩
  case isFalse => cases h

theorem outputOf_of_not_concerns (h : concerns a e = false) : outputOf a e = none := by
  rw [outputOf, if_neg (by simp [h])]

theorem outputOf_of_concerns (h : concerns a e = true) :
    outputOf a e = some (e.1.as 0, e.2.as 0) := by
  rw [outputOf, if_pos h]

end Labels

/-! ### The steps -/

section Steps
variable {s s' t t' : Bus Q} {a b : SubId} {op : Op} {r r' : Ret}

/-- Only `ps_new_subscriber` returns a subscriber. -/
theorem step_subscriber (h : step s op = some (.subscriber a, s')) :
    ∃ queueSize subs, op = .newSubscriber queueSize subs := by
  cases op
  all_goals
    obtain ⟨x, hx, heq⟩ := Option.map_eq_some_iff.mp h
  case newSubscriber queueSize subs => exact ⟨queueSize, subs, rfl⟩
  all_goals cases heq

theorem concerns_cases (h : step s op = some (r, s')) (hc : concerns a (op, r) = true) :
    op.subscriber = some a ∨
      ∃ queueSize subs, op = .newSubscriber queueSize subs ∧ r = .subscriber a := by
  rcases concerns_iff.mp hc with hsub | hret
  · exact .inl hsub
  · obtain rfl : r = .subscriber a := hret
    obtain ⟨queueSize, subs, rfl⟩ := step_subscriber h
    exact .inr ⟨queueSize, subs, rfl, rfl⟩

theorem shared_not_concerns (h : step s op = some (r, s')) (hshared : op.shared = true) :
    concerns a (op, r) = false := by
  rw [Bool.eq_false_iff]
  intro hc
  rcases concerns_cases h hc with hsub | ⟨queueSize, subs, rfl, rfl⟩
  · rw [Op.subscriber_of_shared hshared] at hsub
    cases hsub
  · cases hshared

/-- References, other subscribers and temporary ones. -/
theorem step_apart (hok : s.Ok) (h : step s op = some (r, s')) (hshared : op.shared = false)
    (hother : concerns a (op, r) = false) : Apart a s s' := by
  have hne : ∀ su, op.subscriber = some su → a ≠ su := by
    intro su hsu hau
    have htrue : concerns a (op, r) = true := concerns_iff.mpr (.inl (by rw [hau]; exact hsu))
    rw [hother] at htrue
    cases htrue
  have hret : r ≠ .subscriber a := by
    intro hr
    have htrue : concerns a (op, r) = true := concerns_iff.mpr (.inr hr)
    rw [hother] at htrue
    cases htrue
  cases op
  all_goals cases hshared
  all_goals
    obtain ⟨x, hx, heq⟩ := Option.map_eq_some_iff.mp h
    cases heq
  case refMsg msg =>
    cases msg with
    | none =>
      cases hx
      exact .refl a s
    | some msg => exact ⟨⟨rfl, psRefMsg_sameContent hx, rfl⟩, rfl, fun _ => rfl⟩
  case unrefMsg msg => exact ⟨⟨rfl, psUnrefMsg_sameContent hx, rfl⟩, rfl, fun _ => rfl⟩
  case newSubscriber queueSize subs =>
    obtain ⟨su, s'⟩ := x
    have hsu := (psNewSubscriber_eq_some hx).1
    exact psNewSubscriber_apart (fun hau => hret (by rw [hau, ← hsu])) hok hx
  case freeSubscriber su => exact psFreeSubscriber_apart (hne su rfl) hok hx
  case setNewMsgCb su cb =>
    obtain ⟨S, cbs, hS, rfl⟩ := psSetNewMsgCb_eq_some hx
    exact ⟨⟨rfl, .refl _, rfl⟩, Cells.get_modify_of_ne _ _ (hne su rfl), fun _ => rfl⟩
  case setNonEmptyCb su cb =>
    obtain ⟨S, cbs, hS, rfl⟩ := psSetNonEmptyCb_eq_some hx
    exact ⟨⟨rfl, .refl _, rfl⟩, Cells.get_modify_of_ne _ _ (hne su rfl), fun _ => rfl⟩
  case get su timeout => exact psGet_apart (hne su rfl) hx
  case flush su => exact psFlush_apart (hne su rfl) hx
  case overflow su => exact psOverflow_apart (hne su rfl) hx
  case subscribe su topic => exact psSubscribeFlags_apart (hne su rfl) hok hx
  case subscribeFlags su topic flags => exact psSubscribeFlags_apart (hne su rfl) hok hx
  case subscribeMany su subs => exact psSubscribeMany_apart (hne su rfl) hok hx
  case unsubscribe su topic => exact psUnsubscribe_apart (hne su rfl) hok hx
  case unsubscribeMany su subs => exact psUnsubscribeMany_apart (hne su rfl) hok hx
  case unsubscribeAll su => exact psUnsubscribeAll_apart (hne su rfl) hok hx
  case waitOne topic timeout => exact psWaitOne_apart a hok hx
  all_goals exact .refl a _

/-- Both sides change the content of the same message in the same way. -/
theorem Alike.change {i : MsgId} {m k : PsMsg} (h : Alike s t) (hbody : m.body = k.body) :
    Alike
      { s with messages := { s.messages with cells := s.messages.cells.modify i fun _ => m } }
      { t with messages := { t.messages with cells := t.messages.cells.modify i fun _ => k } } := by
  have hmodify := h.modify (i := i) (u := s.uuidCtr) hbody
  exact ⟨hmodify.ok, modifyMsg_ok h.ok' t.uuidCtr, hmodify.sticky, hmodify.next, hmodify.content,
    h.uuidCtr⟩

/-- The shared calls, whatever they return. -/
theorem step_shared_alike (ha : Alike s t) (hs : step s op = some (r, s'))
    (ht : step t op = some (r', t')) (hshared : op.shared = true) :
    Alike s' t' ∧ ∀ a b, OwnAlike a b s t → OwnAlike a b s' t' := by
  have hsame : ∀ ms ms', ∀ a b, OwnAlike a b s t →
      OwnAlike a b { s with messages := ms } { t with messages := ms' } :=
    fun ms ms' a b hab => hab.of_same rfl rfl rfl rfl
  cases op
  all_goals
    obtain ⟨x, hx, heq⟩ := Option.map_eq_some_iff.mp hs
    obtain ⟨y, hy, heq'⟩ := Option.map_eq_some_iff.mp ht
    cases heq
    cases heq'
  case newMsg topic flags args =>
    cases topic with
    | none =>
      cases hx
      cases hy
      exact ⟨ha, fun a b hab => hab⟩
    | some topic =>
      simp only [psNewMsg, Option.bind_eq_bind, Option.bind_eq_some_iff, Option.some.injEq] at hx hy
      obtain ⟨m, hm, rfl⟩ := hx
      obtain ⟨k, hk, rfl⟩ := hy
      obtain rfl : m = k := Option.some.inj (hm.symm.trans hk)
      exact ⟨ha.alloc rfl, hsame _ _⟩
  case dupMsg msg =>
    obtain ⟨m, hm, heq⟩ := psDupMsg_eq_some hx
    obtain ⟨k, hk, heq'⟩ := psDupMsg_eq_some hy
    have hbody := ha.content msg m k hm hk
    have hdup : ({ m with ref := 1, value := dupValue m } : PsMsg).body =
        ({ k with ref := 1, value := dupValue k } : PsMsg).body := by
      rw [dupValue_of_body hbody]
      exact (congrArg (fun m : PsMsg => { m with value := dupValue k }) hbody : _)
    obtain ⟨i, ms⟩ := x
    obtain ⟨j, ms'⟩ := y
    cases heq
    cases heq'
    exact ⟨ha.alloc hdup, hsame _ _⟩
  case msgSetTopic msg topic =>
    obtain ⟨m, hm, rfl⟩ := psMsgSetTopic_eq_some hx
    obtain ⟨k, hk, rfl⟩ := psMsgSetTopic_eq_some hy
    exact ⟨ha.change (body_setTopic (ha.content msg m k hm hk) topic), hsame _ _⟩
  case msgSetRtopic msg rtopic =>
    obtain ⟨m, hm, rfl⟩ := psMsgSetRtopic_eq_some hx
    obtain ⟨k, hk, rfl⟩ := psMsgSetRtopic_eq_some hy
    exact ⟨ha.change (body_setRtopic (ha.content msg m k hm hk) rtopic), hsame _ _⟩
  case msgSetValue msg flags args =>
    obtain ⟨m, m', hm, hm', rfl⟩ := psMsgSetValue_eq_some hx
    obtain ⟨k, k', hk, hk', rfl⟩ := psMsgSetValue_eq_some hy
    have hset := psMsgSetVvalue_body m flags args
    have hset' := psMsgSetVvalue_body k flags args
    rw [hm', ha.content msg m k hm hk, ← hset', hk'] at hset
    exact ⟨ha.change (Option.some.inj hset), hsame _ _⟩
  case publish msg =>
    cases msg with
    | none =>
      cases hx
      cases hy
      exact ⟨ha, fun a b hab => hab⟩
    | some msg => exact psPublish_alike ha hx hy
  case cleanSticky pre => exact psCleanSticky_alike ha hx hy
  case call msg timeout => exact psCall_alike ha hx hy
  all_goals cases hshared

/-- The calls on the one subscriber. -/
theorem step_own_alike (h : AlikeFor a b s t) (hs : step s op = some (r, s'))
    (ht : step t (op.as b) = some (r', t')) (ha : op.subscriber = some a)
    (hchild : op.childSticky = false) : r = r' ∧ AlikeFor a b s' t' := by
  cases op
  all_goals
    first
    | obtain rfl : _ = a := Option.some.inj ha
      obtain ⟨x, hx, heq⟩ := Option.map_eq_some_iff.mp hs
      obtain ⟨y, hy, heq'⟩ := Option.map_eq_some_iff.mp ht
      cases heq
      cases heq'
    | cases ha
  case freeSubscriber => exact ⟨rfl, psFreeSubscriber_alike h hx hy⟩
  case setNewMsgCb => exact ⟨rfl, psSetNewMsgCb_alike h hx hy⟩
  case setNonEmptyCb => exact ⟨rfl, psSetNonEmptyCb_alike h hx hy⟩
  case get =>
    obtain ⟨hmsg, hnext⟩ := psGet_alike h hx hy
    exact ⟨by rw [hmsg], hnext⟩
  case flush =>
    obtain ⟨hn, hnext⟩ := psFlush_alike h hx hy
    exact ⟨by rw [hn], hnext⟩
  case waiting =>
    obtain ⟨n, hn, heq⟩ := Option.bind_eq_some_iff.mp hx
    obtain ⟨n', hn', heq'⟩ := Option.bind_eq_some_iff.mp hy
    cases heq
    cases heq'
    exact ⟨by rw [psWaiting_alike h hn hn'], h⟩
  case overflow =>
    obtain ⟨hn, hnext⟩ := psOverflow_alike h hx hy
    exact ⟨by rw [hn], hnext⟩
  case numSubs =>
    have hcount := h.2.count
    rw [hcount, hy] at hx
    cases hx
    exact ⟨rfl, h⟩
  case subscribe =>
    obtain ⟨hr, hnext⟩ := psSubscribeFlags_alike h hchild hx hy
    exact ⟨by rw [hr], hnext⟩
  case subscribeFlags =>
    obtain ⟨hr, hnext⟩ := psSubscribeFlags_alike h hchild hx hy
    exact ⟨by rw [hr], hnext⟩
  case subscribeMany subs =>
    obtain ⟨hn, hnext⟩ := psSubscribeMany_alike h hchild hx hy
    exact ⟨by rw [hn], hnext⟩
  case unsubscribe =>
    obtain ⟨hr, hnext⟩ := psUnsubscribe_alike h hx hy
    exact ⟨by rw [hr], hnext⟩
  case unsubscribeMany =>
    obtain ⟨hn, hnext⟩ := psUnsubscribeMany_alike h hx hy
    exact ⟨by rw [hn], hnext⟩
  case unsubscribeAll =>
    obtain ⟨hn, hnext⟩ := psUnsubscribeAll_alike h hx hy
    exact ⟨by rw [hn], hnext⟩

/-- Both sides make the one subscriber. -/
theorem psNewSubscriber_alike {queueSize : ℕ} {subs : Option (List Str)} (ha : Alike s t)
    (hchild : ((subs.getD []).any fun topic => (subFlags topic none).childSticky) = false)
    (hs : psNewSubscriber s queueSize subs = some (a, s'))
    (ht : psNewSubscriber t queueSize subs = some (b, t')) : AlikeFor a b s' t' := by
  have hnew := psNewSubscriber_quiet ha.ok hs
  have hnew' := psNewSubscriber_quiet ha.ok' ht
  obtain ⟨rfl, n, s₁, hmany, rfl⟩ := psNewSubscriber_eq_some hs
  obtain ⟨rfl, n', t₁, hmany', rfl⟩ := psNewSubscriber_eq_some ht
  have hq := addSubscriber_quiet ha.ok queueSize
  have hq' := addSubscriber_quiet ha.ok' queueSize
  have hadd : AlikeFor s.subscribers.next t.subscribers.next (addSubscriber s queueSize)
      (addSubscriber t queueSize) := by
    refine ⟨ha.calms hq.ok hq'.ok hq.calm hq'.calm, ?_, fun name => ?_, ?_⟩
    · rw [addSubscriber, addSubscriber, Cells.get_alloc_self, Cells.get_alloc_self]
    · -- nothing listed them before
      have hnone := entriesTo_dead ha.ok (Cells.get_next s.subscribers) name
      have hnone' := entriesTo_dead ha.ok' (Cells.get_next t.subscribers) name
      rw [addSubscriber, addSubscriber, hnone, hnone']
    · simp [psNumSubs, addSubscriber, newSubscriber]
  have hsubs := (psSubscribeMany_alike hadd hchild hmany hmany').2
  exact ⟨ha.calms hnew.ok hnew'.ok hnew.calm hnew'.calm, hsubs.2.of_same rfl rfl rfl rfl⟩

theorem AlikeFor.left (h : AlikeFor a b s t) (hs : step s op = some (r, s'))
    (hshared : op.shared = false) (hother : concerns a (op, r) = false) : AlikeFor a b s' t := by
  have hapart := step_apart h.1.ok hs hshared hother
  exact ⟨h.1.calm (step_spec h.1.ok hs).ok hapart.toCalm, h.2.apart hapart⟩

theorem AlikeFor.symm (h : AlikeFor a b s t) : AlikeFor b a t s := ⟨h.1.symm, h.2.symm⟩

end Steps

/-! ### The runs -/

/-- What the two sides show of the two subscribers, step by step. -/
theorem unwinding (a b : SubId) : Unwinding (AlikeFor (Q := Q) a b) (fun op => op.childSticky = false)
    (fun s e s' => step s e.1 = some (e.2, s')) (fun s e s' => step s e.1 = some (e.2, s'))
    (inputOf a) (inputOf b) (outputOf a) (outputOf b) where
  left s e s' t h hs he := by
    obtain ⟨hshared, hother⟩ := inputOf_eq_none.mp he
    exact ⟨h.left hs hshared hother, outputOf_of_not_concerns hother⟩
  right s t f t' h ht hf := by
    obtain ⟨hshared, hother⟩ := inputOf_eq_none.mp hf
    exact ⟨(h.symm.left ht hshared hother).symm, outputOf_of_not_concerns hother⟩
  both s e s' t f t' op h hchild hs ht he hf := by
    obtain ⟨e, r⟩ := e
    obtain ⟨f, r'⟩ := f
    obtain ⟨hvis, rfl⟩ := inputOf_eq_some he
    obtain ⟨hvis', hsame⟩ := inputOf_eq_some hf
    rw [Op.childSticky_as] at hchild
    cases hshared : e.shared with
    | true =>
      -- a shared call is on no subscriber
      have hnone := Op.subscriber_of_shared hshared
      have hnone' := Op.subscriber_of_shared ((Op.shared_eq hsame).trans hshared)
      have hef : f = e := by
        rw [← Op.as_of_subscriber_eq_none hnone 0, ← hsame, Op.as_of_subscriber_eq_none hnone' 0]
      subst hef
      obtain ⟨ha, hown⟩ := step_shared_alike h.1 hs ht hshared
      refine ⟨⟨ha, hown a b h.2⟩, ?_⟩
      rw [outputOf_of_not_concerns (shared_not_concerns hs hshared),
        outputOf_of_not_concerns (shared_not_concerns ht hshared)]
    | false =>
      have hshared' : f.shared = false := (Op.shared_eq hsame).trans hshared
      have hc : concerns a (e, r) = true := by simpa [hshared] using hvis
      have hc' : concerns b (f, r') = true := by simpa [hshared'] using hvis'
      rw [outputOf_of_concerns hc, outputOf_of_concerns hc', hsame]
      rcases concerns_cases hs hc with ha | ⟨queueSize, subs, rfl, rfl⟩
      · rcases concerns_cases ht hc' with hb | ⟨queueSize, subs, rfl, rfl⟩
        · obtain rfl : f = e.as b := Op.eq_as hsame.symm hb
          obtain ⟨rfl, hnext⟩ := step_own_alike h hs ht ha hchild
          exact ⟨hnext, rfl⟩
        · have hsome := Op.isSome_subscriber_eq hsame
          rw [ha] at hsome
          cases hsome
      · have hsome := Op.isSome_subscriber_eq hsame
        rcases concerns_cases ht hc' with hb | ⟨queueSize', subs', rfl, rfl⟩
        · rw [hb] at hsome
          cases hsome
        · cases hsame
          obtain ⟨⟨x, sx⟩, hx, heq⟩ := Option.map_eq_some_iff.mp hs
          obtain ⟨⟨y, sy⟩, hy, heq'⟩ := Option.map_eq_some_iff.mp ht
          cases heq
          cases heq'
          exact ⟨psNewSubscriber_alike h.1 hchild hx hy, rfl⟩

theorem alikeFor_init (a b : SubId) : AlikeFor a b (Bus.init : Bus Q) Bus.init := by
  refine ⟨⟨init_ok, init_ok, rfl, rfl, fun i m k hm hk => ?_, rfl⟩, .of_dead init_ok init_ok rfl rfl⟩
  cases hm

/-- Two runs with the same shared calls and the same calls on one subscriber, which
makes no `child_sticky` subscription: the calls on it return the same, and what its
queue, its counters and its messages hold is the same, whatever else was done. -/
theorem subscribers_do_not_interfere {h k : List Label} {s t : Bus Q} (hs : Bus.init.Reaches h s)
    (ht : Bus.init.Reaches k t) {a b : SubId} (hsame : h.filterMap (inputOf a) = k.filterMap (inputOf b))
    (hchild : ∀ op ∈ h.filterMap (inputOf a), op.childSticky = false) :
    h.filterMap (outputOf a) = k.filterMap (outputOf b) ∧
    queuesOf s.subscribers a = queuesOf t.subscribers b ∧ psWaiting s a = psWaiting t b ∧
    (psOverflow s a).map Prod.fst = (psOverflow t b).map Prod.fst ∧
    psNumSubs s a = psNumSubs t b ∧
    ∀ i m k, s.messages.cells.get i = some m → t.messages.cells.get i = some k →
      m.body = k.body := by
  obtain ⟨⟨halike, hown⟩, hobs⟩ := (unwinding a b).run (alikeFor_init a b) hs ht hchild hsame
  refine ⟨hobs, ?_, ?_, ?_, hown.count, halike.content⟩
  · rw [queuesOf_eq_own, queuesOf_eq_own, hown.record]
  · rw [psWaiting_eq_own, psWaiting_eq_own, hown.record]
  · rw [psOverflow_eq_own, psOverflow_eq_own, hown.record]

/-- A subscriber beside one of the same topic with a full queue that is never read, and
the same subscriber alone. -/
theorem subscribers_do_not_interfere_full : ∃ (h k : List Label) (s t : Bus Bucket.Queue),
    Bus.init.Reaches h s ∧ Bus.init.Reaches k t ∧
    h.filterMap (outputOf 1) = k.filterMap (outputOf 0) ∧
    psWaiting s 1 = psWaiting t 0 ∧ psWaiting s 1 = some 1 ∧ psWaiting s 0 = some 1 ∧
    (psOverflow s 0).map Prod.fst = some 1 := by
  have hcalls : ((exec (step (Q := Bucket.Queue)) [.newSubscriber 1 (some ["a".toList]),
      .newSubscriber 1 (some ["a h".toList]), .newMsg (some "a".toList) 0x800 .nil, .publish (some 0),
      .get 1 0, .newMsg (some "a".toList) 0x800 .nil, .publish (some 1)] Bus.init).map
        fun (rs, s) => (rs, psWaiting s 0, (psOverflow s 0).map Prod.fst, psWaiting s 1)) =
      some ([.subscriber 0, .subscriber 1, .msg (some 0), .int 1, .msg (some 0), .msg (some 1),
        .int 0], some 1, some 1, some 1) := by
    decide +kernel
  have halone : ((exec (step (Q := Bucket.Queue)) [.newSubscriber 1 (some ["a h".toList]),
      .newMsg (some "a".toList) 0x800 .nil, .publish (some 0), .get 0 0,
      .newMsg (some "a".toList) 0x800 .nil, .publish (some 1)] Bus.init).map Prod.fst) =
      some [.subscriber 0, .msg (some 0), .int 0, .msg (some 0), .msg (some 1), .int 0] := by
    decide +kernel
  obtain ⟨⟨rs, s⟩, hexec, heq⟩ := Option.map_eq_some_iff.mp hcalls
  obtain ⟨⟨rs', t⟩, hexec', heq'⟩ := Option.map_eq_some_iff.mp halone
  simp only [Prod.mk.injEq] at heq heq'
  obtain ⟨rfl, hfull, hlost, hwaiting⟩ := heq
  subst heq'
  have hrun : Bus.init.Reaches _ s := run_of_exec hexec
  have hrun' : Bus.init.Reaches _ t := run_of_exec hexec'
  have hresult := subscribers_do_not_interfere hrun hrun' (a := 1) (b := 0) rfl (by decide)
  exact ⟨_, _, s, t, hrun, hrun', hresult.1, hresult.2.2.1, hwaiting, hfull, hlost⟩

end PubSub
