import PubSub.Bus.Routing
import PubSub.Bus.Subscriptions

/-! What one subscriber gets of the offers of a message: its queue and the answers
are those of its own entries, whatever the others are. The same for the messages
it loses. -/

namespace PubSub

open Lib

variable {Q : Type → Type} [PsQueue Q] [LawfulPsQueue Q]

/-- The entries of `su` on a route. -/
def entriesFor (su : SubId) (es : List (Str × SubscriberList)) : List SubscriberList :=
  (es.map Prod.snd).filter fun sl => sl.su = su

/-- The offers of one message to one queue, with the queue's answers. -/
def offersTo (msg : MsgId) : List SubscriberList → IdleQueue Q MsgId →
    Option (List QueueRet × IdleQueue Q MsgId)
  | [], q => some ([], q)
  | sl :: sls, q =>
    if sl.onEmpty && q.waiting ≠ 0 then offersTo msg sls q
    else do
      let (ret, _, q) ← q.push msg sl.priority.toUInt8
      let (rets, q) ← offersTo msg sls q
      some (ret :: rets, q)

/-- The answers of the queue of `su`. -/
def answersOf (su : SubId) (as : List Attempt) : List QueueRet :=
  (as.filter fun a => a.sl.su = su).map Attempt.ret

section Share
variable {msg : MsgId} {su : SubId} {q q' : IdleQueue Q MsgId} {sl : SubscriberList}
  {sls : List SubscriberList} {es : List (Str × SubscriberList)}

theorem offersTo_skip (hskip : (sl.onEmpty && q.waiting ≠ 0) = true) :
    offersTo msg (sl :: sls) q = offersTo msg sls q := by
  rw [offersTo, if_pos hskip]

theorem offersTo_push {ret : QueueRet} {evicted : Option MsgId}
    (hskip : ¬ (sl.onEmpty && q.waiting ≠ 0) = true)
    (hp : q.push msg sl.priority.toUInt8 = some (ret, evicted, q')) :
    offersTo msg (sl :: sls) q = (offersTo msg sls q').map fun (rets, q) => (ret :: rets, q) := by
  rw [offersTo, if_neg hskip, hp, Option.map_eq_bind]
  rfl

/-- Whose entry it is does not matter to the queue. -/
theorem offersTo_rename (x : SubId) (sls : List SubscriberList) (q : IdleQueue Q MsgId) :
    offersTo msg (sls.map fun sl => { sl with su := x }) q = offersTo msg sls q := by
  induction sls generalizing q with
  | nil => rfl
  | cons sl sls ih =>
    rw [List.map_cons, offersTo, offersTo]
    simp only [ih]

theorem entriesFor_cons_self {e : Str × SubscriberList} (h : e.2.su = su) :
    entriesFor su (e :: es) = e.2 :: entriesFor su es := by
  rw [entriesFor, List.map_cons, List.filter_cons_of_pos (by simpa using h)]
  rfl

theorem entriesFor_cons_ne {e : Str × SubscriberList} (h : e.2.su ≠ su) :
    entriesFor su (e :: es) = entriesFor su es := by
  rw [entriesFor, List.map_cons, List.filter_cons_of_neg (by simpa using h)]
  rfl

theorem entriesFor_append (fs : List (Str × SubscriberList)) :
    entriesFor su (es ++ fs) = entriesFor su es ++ entriesFor su fs := by
  simp only [entriesFor, List.map_append, List.filter_append]

theorem answersOf_append (as bs : List Attempt) :
    answersOf su (as ++ bs) = answersOf su as ++ answersOf su bs := by
  simp only [answersOf, List.filter_append, List.map_append]

/-- The share of one subscriber in a list of offers. -/
theorem offers_share {qs qs' : Queues Q} {as : List Attempt}
    (h : offers msg es qs = some (as, qs')) (hq : qs su = some q) :
    ∃ q', qs' su = some q' ∧
      offersTo msg (entriesFor su es) q = some (answersOf su as, q') := by
  induction es generalizing qs as q with
  | nil =>
    cases h
    exact ⟨q, hq, rfl⟩
  | cons e es ih =>
    obtain ⟨as₁, as₂, qs₁, ho, hos, rfl⟩ := offers_cons_eq_some h
    obtain ⟨r, hr, hcase⟩ := offer_cases ho
    by_cases hsu : e.2.su = su
    · have hrq : r = q := by
        rw [hsu, hq] at hr
        exact (Option.some.inj hr).symm
      subst hrq
      rw [entriesFor_cons_self hsu]
      rcases hcase with ⟨hskip, rfl, rfl⟩ | ⟨hskip, ret, evicted, q₁, hp, rfl, rfl⟩
      · rw [offersTo_skip hskip]
        exact ih hos hq
      · have hq₁ : Function.update qs e.2.su (some q₁) su = some q₁ := by
          rw [hsu, Function.update_self]
        obtain ⟨q₂, hq₂, hto⟩ := ih hos hq₁
        refine ⟨q₂, hq₂, ?_⟩
        rw [offersTo_push hskip hp, hto, answersOf_append]
        simp [answersOf, hsu]
    · rw [entriesFor_cons_ne hsu]
      rcases hcase with ⟨-, rfl, rfl⟩ | ⟨-, ret, evicted, q₁, -, rfl, rfl⟩
      · exact ih hos hq
      · have hq₁ : Function.update qs e.2.su (some q₁) su = some q := by
          rw [Function.update_of_ne (Ne.symm hsu), hq]
        obtain ⟨q₂, hq₂, hto⟩ := ih hos hq₁
        refine ⟨q₂, hq₂, ?_⟩
        rw [hto, answersOf_append]
        simp [answersOf, hsu]

end Share

/-! ### The messages that a subscriber loses -/

/-- The pushes to `su` that found its queue full. -/
def lost (su : SubId) (ps : List Push) : ℕ := ps.countP fun p => p.su = su && p.ret ≠ .ok

section Lost
variable {s s' : Bus Q} {su : SubId} {S : PsSubscriber Q} {ps : List Push}

theorem lost_append (ps qs : List Push) : lost su (ps ++ qs) = lost su ps + lost su qs := by
  simp only [lost, List.countP_append]

theorem lost_attempts (msg : MsgId) (as : List Attempt) :
    lost su (as.map (Attempt.push msg)) = (answersOf su as).countP fun ret => ret ≠ .ok := by
  rw [lost, answersOf, List.countP_map, List.countP_map, List.countP_filter]
  apply List.countP_congr
  intro a _
  show (decide (a.sl.su = su) && decide (a.ret ≠ .ok)) = true ↔
    (decide (a.ret ≠ .ok) && decide (a.sl.su = su)) = true
  rw [Bool.and_comm]

/-- What pushes leave of a subscriber's record. -/
theorem Bus.Pushes.record (h : s.Pushes ps s') (hS : s.subscribers.get su = some S) :
    ∃ q, s'.subscribers.get su =
      some { S with q := q, overflow := S.overflow + UInt32.ofNat (lost su ps) } := by
  induction h with
  | nil => exact ⟨S.q, by rw [hS]; simp [lost]⟩
  | @snoc ps t u p _ hp ih =>
    obtain ⟨q, hq⟩ := ih
    obtain ⟨N, evicted, q', ms₁, ms₂, ms₃, hN, -, -, -, -, rfl⟩ := hp
    rw [lost_append]
    by_cases hsu : p.su = su
    · subst hsu
      rw [hq] at hN
      cases hN
      refine ⟨q', ?_⟩
      rw [Cells.get_modify_self, hq, Option.map_some]
      by_cases hret : p.ret = .ok
      · simp [lost, hret]
      · have hone : lost p.su [p] = 1 := by simp [lost, hret]
        rw [hone, UInt32.ofNat_add, ← UInt32.add_assoc, if_neg hret]
        rfl
    · refine ⟨q, ?_⟩
      rw [Cells.get_modify_of_ne _ _ (Ne.symm hsu), hq]
      simp [lost, hsu]

end Lost

/-! ### The record of one subscriber -/

/-- A subscriber after the offers of one message to its entries. -/
def PsSubscriber.offered (S : PsSubscriber Q) (msg : MsgId) (sls : List SubscriberList) :
    Option (PsSubscriber Q) :=
  (offersTo msg sls S.q).map fun (rets, q) =>
    { S with q := q, overflow := S.overflow + UInt32.ofNat (rets.countP fun ret => ret ≠ .ok) }

/-- The record without its list of topics, whose addresses depend on the others. -/
def PsSubscriber.own (S : PsSubscriber Q) : PsSubscriber Q := { S with subs := [] }

section Record
variable {s s' : Bus Q} {su : SubId} {S : PsSubscriber Q} {msg : MsgId} {sls : List SubscriberList}

@[simp] theorem offered_nil : S.offered msg [] = some S := by
  simp [PsSubscriber.offered, offersTo]

theorem offered_own : (S.offered msg sls).map PsSubscriber.own = S.own.offered msg sls := by
  simp only [PsSubscriber.offered, Option.map_map]
  rfl

theorem map_own_offered (o : Option (PsSubscriber Q)) (msg : MsgId) (sls : List SubscriberList) :
    (o.bind fun S => S.offered msg sls).map PsSubscriber.own =
      o.bind fun S => S.own.offered msg sls := by
  cases o with
  | none => rfl
  | some S => exact offered_own

theorem offered_rename (x : SubId) :
    S.offered msg (sls.map fun sl => { sl with su := x }) = S.offered msg sls := by
  rw [PsSubscriber.offered, offersTo_rename]
  rfl

theorem queuesOf_eq_own (c : Cells (PsSubscriber Q)) (x : SubId) :
    queuesOf c x = ((c.get x).map PsSubscriber.own).map PsSubscriber.q := by
  rw [Option.map_map]
  rfl

theorem psWaiting_eq_own (s : Bus Q) (x : SubId) : psWaiting s x =
    ((s.subscribers.get x).map PsSubscriber.own).map fun S => S.q.waiting := by
  rw [Option.map_map, psWaiting, Option.map_eq_bind]
  rfl

theorem psOverflow_eq_own (s : Bus Q) (x : SubId) : (psOverflow s x).map Prod.fst =
    ((s.subscribers.get x).map PsSubscriber.own).map fun S => S.overflow.toInt32.toInt := by
  rw [Option.map_map, psOverflow]
  cases s.subscribers.get x <;> rfl

/-- One push is the offer of an entry that is not `on_empty`. -/
theorem PushStep.record {p : Push} {sl : SubscriberList} (h : PushStep s p s')
    (hS : s.subscribers.get p.su = some S) (hon : sl.onEmpty = false)
    (hp : sl.priority.toUInt8 = p.priority) :
    s'.subscribers.get p.su = S.offered p.msg [sl] := by
  obtain ⟨N, evicted, q, ms₁, ms₂, ms₃, hN, hq, -, -, -, rfl⟩ := h
  rw [hS] at hN
  cases hN
  have hskip : ¬ (sl.onEmpty && S.q.waiting ≠ 0) = true := by simp [hon]
  rw [← hp] at hq
  rw [Cells.get_modify_self, hS, PsSubscriber.offered, offersTo_push hskip hq]
  simp only [offersTo, Option.map_some, List.countP_singleton, Option.some.injEq]
  by_cases hret : p.ret = .ok
  · simp [hret]
  · simp [hret]

/-- A subscription that has nothing to replay. -/
theorem Subscribed.of_nil {topic : Str} {flags : PsSubFlags} {s₁ : Bus Q} {ps : List Push}
    (h : Subscribed s su topic flags s' s₁ ps) (hr : replayed s₁.topicMap topic flags = []) :
    ps = [] ∧ s' = s₁ := by
  have hreq := h.requests
  rw [hr, List.map_nil, List.map_eq_nil_iff] at hreq
  subst hreq
  exact ⟨rfl, h.pushes.eq_of_nil⟩

/-- A subscription that replays one message. -/
theorem Subscribed.of_singleton {topic : Str} {flags : PsSubFlags} {s₁ : Bus Q} {ps : List Push}
    (h : Subscribed s su topic flags s' s₁ ps) (hr : replayed s₁.topicMap topic flags = [msg]) :
    ∃ ret, ps = [⟨su, topic, msg, flags.priority, ret⟩] ∧
      PushStep s₁ ⟨su, topic, msg, flags.priority, ret⟩ s' := by
  have hreq := h.requests
  rw [hr, List.map_singleton] at hreq
  obtain ⟨⟨psu, via, pmsg, prio, ret⟩, rfl, heq⟩ := List.map_eq_singleton_iff.mp hreq
  cases heq
  exact ⟨ret, rfl, h.pushes.of_single⟩

/-- A publish does to each subscriber what the offers to its entries do. -/
theorem Published.record {n : ℕ} {m : PsMsg} {topic : Str} {as : List Attempt} {s₀ s₁ : Bus Q}
    (h : Published s msg n s' m topic as s₀ s₁) (su : SubId) :
    s'.subscribers.get su = (s.subscribers.get su).bind fun S =>
      S.offered msg (entriesFor su (route s.topicMap m topic)) := by
  have hsubs : s'.subscribers = s₁.subscribers := by
    obtain ⟨ms, -, rfl⟩ := h.release
    rfl
  rw [← h.stickyStep.subscribers]
  cases hS : s₀.subscribers.get su with
  | none =>
    have hlive := h.pushes.sameSubscribers.live su
    rw [hS, ← hsubs, Option.isSome_none, Option.isSome_eq_false_iff,
      Option.isNone_iff_eq_none] at hlive
    exact hlive
  | some S =>
    have hS' : s.subscribers.get su = some S := by rw [← h.stickyStep.subscribers, hS]
    obtain ⟨q, hq⟩ := h.pushes.record hS
    obtain ⟨q', hq', hto⟩ := offers_share h.offers (queuesOf_eq_some.mpr ⟨S, hS', rfl⟩)
    rw [← hsubs] at hq
    obtain ⟨N, hN, hNq⟩ := queuesOf_eq_some.mp hq'
    rw [hq] at hN
    cases hN
    rw [Option.bind_some, PsSubscriber.offered, hto, hq, lost_attempts]
    subst hNq
    rfl

end Record

end PubSub
