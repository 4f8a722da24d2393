import PubSub.Bus.Api
import PubSub.Lib.InStep

/-! Two buses over two backends. The code above the queue sees a queue through its results
only, so if the queues give the same results, the two buses are in step. `P su` are the
priorities that the subscriptions of `su` may have, and `E su` relates its two queues. -/

namespace PubSub

open Lib Bus

variable {Q Q' : Type → Type} [PsQueue Q] [LawfulPsQueue Q] [PsQueue Q'] [LawfulPsQueue Q']

/-- The backends agree, as long as the pushes have allowed priorities. -/
structure QueuesAgree (P : SubId → UInt8 → Prop)
    (E : SubId → IdleQueue Q MsgId → IdleQueue Q' MsgId → Prop) : Prop where
  new : ∀ su n, E su (.new n) (.new n)
  push : ∀ su a b m p, E su a b → P su p → InStep (Both (Both (E su))) (a.push m p) (b.push m p)
  pull : ∀ su a b t, E su a b → InStep (Both (E su)) (a.pull t) (b.pull t)
  waiting : ∀ su a b, E su a b → a.waiting = b.waiting

structure SubscribersAgree (E : IdleQueue Q MsgId → IdleQueue Q' MsgId → Prop)
    (S : PsSubscriber Q) (T : PsSubscriber Q') : Prop where
  q : E S.q T.q
  subs : S.subs = T.subs
  overflow : S.overflow = T.overflow
  newMsgCb : S.newMsgCb = T.newMsgCb
  nonEmptyCb : S.nonEmptyCb = T.nonEmptyCb

/-- The subscriptions in a topic table have allowed priorities. -/
def Allowed (P : SubId → UInt8 → Prop) (topicMap : Cells TopicMap) : Prop :=
  ∀ tm t, topicMap.get tm = some t → ∀ sl ∈ t.subscribers, P sl.su sl.priority.toUInt8

/-- The two states differ in the representation of the queues at most. -/
structure Lockstep (P : SubId → UInt8 → Prop)
    (E : SubId → IdleQueue Q MsgId → IdleQueue Q' MsgId → Prop) (s : Bus Q) (t : Bus Q') : Prop where
  topicMap : s.topicMap = t.topicMap
  messages : s.messages = t.messages
  next : s.subscribers.next = t.subscribers.next
  subscribers : ∀ su, InStep (SubscribersAgree (E su)) (s.subscribers.get su) (t.subscribers.get su)
  uuidCtr : s.uuidCtr = t.uuidCtr
  statLiveSubscribers : s.statLiveSubscribers = t.statLiveSubscribers
  callbacks : s.callbacks = t.callbacks
  pushes : s.pushes = t.pushes
  allowed : Allowed P s.topicMap

namespace Allowed
variable {P : SubId → UInt8 → Prop} {topicMap topicMap' : Cells TopicMap} {tm : TopicId} {t : TopicMap}

theorem modify {f : TopicMap → TopicMap} (h : Allowed P topicMap)
    (hf : ∀ t, topicMap.get tm = some t → ∀ sl ∈ (f t).subscribers, P sl.su sl.priority.toUInt8) :
    Allowed P (topicMap.modify tm f) := by
  intro i t' ht' sl hsl
  rw [Cells.get_modify] at ht'
  split at ht'
  case isTrue hi =>
    obtain ⟨t, ht, rfl⟩ := Option.map_eq_some_iff.mp ht'
    exact hf t (hi ▸ ht) sl hsl
  case isFalse => exact h i t' ht' sl hsl

theorem free (h : Allowed P topicMap) : Allowed P (topicMap.free tm) := by
  intro i t' ht' sl hsl
  rw [Cells.get_free] at ht'
  split at ht'
  case isTrue => cases ht'
  case isFalse => exact h i t' ht' sl hsl

theorem freeTopicIfEmpty {freed : Bool} (h : Allowed P topicMap)
    (hf : PubSub.freeTopicIfEmpty topicMap tm = some (freed, topicMap')) : Allowed P topicMap' := by
  obtain ⟨t, -, hf⟩ := Option.bind_eq_some_iff.mp hf
  split at hf
  case isTrue =>
    cases hf
    exact h.free
  case isFalse =>
    cases hf
    exact h

theorem createTopic (h : Allowed P topicMap) (name : Str) :
    Allowed P (PubSub.createTopic topicMap name).2 := by
  intro i t' ht' sl hsl
  simp only [PubSub.createTopic, Cells.get_alloc] at ht'
  split at ht'
  case isTrue =>
    cases ht'
    cases hsl
  case isFalse => exact h i t' ht' sl hsl

theorem fetchTopicCreateIfNotExist (h : Allowed P topicMap) (name : Str) :
    Allowed P (PubSub.fetchTopicCreateIfNotExist topicMap name).2 := by
  rw [PubSub.fetchTopicCreateIfNotExist]
  split
  · exact h
  · exact h.createTopic name

end Allowed

namespace Lockstep
variable {P : SubId → UInt8 → Prop} {E : SubId → IdleQueue Q MsgId → IdleQueue Q' MsgId → Prop}
variable {s : Bus Q} {t : Bus Q'} {su : SubId} {msg : MsgId}

/-! ### Changes of one part -/

theorem start : Lockstep P E Bus.init Bus.init :=
  ⟨rfl, rfl, rfl, fun _ => .none, rfl, rfl, rfl, rfl, fun _ _ h => nomatch h⟩

theorem setMessages (h : Lockstep P E s t) (ms : Messages) :
    Lockstep P E { s with messages := ms } { t with messages := ms } :=
  ⟨h.topicMap, rfl, h.next, h.subscribers, h.uuidCtr, h.statLiveSubscribers, h.callbacks, h.pushes,
    h.allowed⟩

theorem setTopicMap {topicMap : Cells TopicMap} (h : Lockstep P E s t) (ha : Allowed P topicMap) :
    Lockstep P E { s with topicMap := topicMap } { t with topicMap := topicMap } :=
  ⟨rfl, h.messages, h.next, h.subscribers, h.uuidCtr, h.statLiveSubscribers, h.callbacks, h.pushes, ha⟩

theorem addCallbacks (h : Lockstep P E s t) (l : List CallbackCall) :
    Lockstep P E { s with callbacks := s.callbacks ++ l } { t with callbacks := t.callbacks ++ l } :=
  ⟨h.topicMap, h.messages, h.next, h.subscribers, h.uuidCtr, h.statLiveSubscribers,
    congrArg (· ++ l) h.callbacks, h.pushes, h.allowed⟩

theorem addPush (h : Lockstep P E s t) (p : Push) :
    Lockstep P E { s with pushes := s.pushes ++ [p] } { t with pushes := t.pushes ++ [p] } :=
  ⟨h.topicMap, h.messages, h.next, h.subscribers, h.uuidCtr, h.statLiveSubscribers, h.callbacks,
    congrArg (· ++ [p]) h.pushes, h.allowed⟩

theorem modifySubscriber {f : PsSubscriber Q → PsSubscriber Q} {g : PsSubscriber Q' → PsSubscriber Q'}
    (h : Lockstep P E s t)
    (hfg : ∀ S T, SubscribersAgree (E su) S T → SubscribersAgree (E su) (f S) (g T)) :
    Lockstep P E (s.modifySubscriber su f) (t.modifySubscriber su g) := by
  refine ⟨h.topicMap, h.messages, h.next, fun i => ?_, h.uuidCtr, h.statLiveSubscribers, h.callbacks,
    h.pushes, h.allowed⟩
  simp only [Bus.modifySubscriber, Cells.get_modify]
  refine .ite (fun hi => ?_) fun _ => h.subscribers i
  subst hi
  exact (h.subscribers i).map hfg

theorem setSubscriber {S : PsSubscriber Q} {T : PsSubscriber Q'} (h : Lockstep P E s t)
    (hST : SubscribersAgree (E su) S T) :
    Lockstep P E (s.modifySubscriber su fun _ => S) (t.modifySubscriber su fun _ => T) :=
  h.modifySubscriber fun _ _ _ => hST

/-! ### One queue -/

section Queue
variable (hQ : QueuesAgree P E)
include hQ

theorem pushSubscriberQueue {p : UInt8} {via : Str} (h : Lockstep P E s t) (hp : P su p) :
    InStep (Both (Lockstep P E)) (pushSubscriberQueue s su via msg p)
      (pushSubscriberQueue t su via msg p) := by
  simp only [PubSub.pushSubscriberQueue, ← h.messages]
  refine .read fun ms _ => (h.subscribers su).bind fun S T hST => ?_
  refine (hQ.push su S.q T.q msg p hST.q hp).bind ?_
  rintro ⟨ret, evicted, q⟩ ⟨ret', evicted', q'⟩ ⟨rfl, rfl, hq⟩
  refine .read fun ms₂ _ => ?_
  have hlost : SubscribersAgree (E su) { S with q := q, overflow := S.overflow + 1 }
      { T with q := q', overflow := T.overflow + 1 } :=
    ⟨hq, hST.subs, congrArg (· + 1) hST.overflow, hST.newMsgCb, hST.nonEmptyCb⟩
  have hpush := h.addPush ⟨su, via, msg, p, ret⟩
  cases ret with
  | efull => exact .read fun ms₃ _ => .some ⟨rfl, (hpush.setMessages ms₃).setSubscriber hlost⟩
  | eoverflow => exact .some ⟨rfl, (hpush.setMessages ms₂).setSubscriber hlost⟩
  | ok =>
    have hkept : SubscribersAgree (E su) { S with q := q } { T with q := q' } :=
      ⟨hq, hST.subs, hST.overflow, hST.newMsgCb, hST.nonEmptyCb⟩
    have hcallbacks : deliveryCallbacks su S q.waiting = deliveryCallbacks su T q'.waiting := by
      rw [deliveryCallbacks, deliveryCallbacks, hST.newMsgCb, hST.nonEmptyCb, hQ.waiting su q q' hq]
    rw [hcallbacks]
    exact .some ⟨rfl, ((hpush.setMessages ms₂).setSubscriber hkept).addCallbacks _⟩

theorem get {timeout : Int64} (h : Lockstep P E s t) :
    InStep (Both (Lockstep P E)) (psGet s su timeout) (psGet t su timeout) := by
  refine (h.subscribers su).bind fun S T hST => (hQ.pull su S.q T.q timeout hST.q).bind ?_
  rintro ⟨m, q⟩ ⟨m', q'⟩ ⟨rfl, hq⟩
  exact .some ⟨rfl, h.setSubscriber ⟨hq, hST.subs, hST.overflow, hST.newMsgCb, hST.nonEmptyCb⟩⟩

theorem flushLoop (fuel flushed : ℕ) (h : Lockstep P E s t) :
    InStep (Both (Lockstep P E)) (flushLoop su fuel flushed s) (flushLoop su fuel flushed t) := by
  induction fuel generalizing flushed s t with
  | zero => exact .none
  | succ fuel ih =>
    refine (h.get hQ).bind ?_
    rintro ⟨m, s'⟩ ⟨m', t'⟩ ⟨rfl, h'⟩
    cases m with
    | none => exact .some ⟨rfl, h'⟩
    | some m =>
      dsimp only
      rw [← h'.messages]
      exact .read fun ms _ => ih (flushed + 1) (h'.setMessages ms)

theorem flush (h : Lockstep P E s t) : InStep (Both (Lockstep P E)) (psFlush s su) (psFlush t su) := by
  refine (h.subscribers su).bind fun S T hST => ?_
  rw [hQ.waiting su S.q T.q hST.q]
  exact h.flushLoop hQ _ 0

theorem waiting (h : Lockstep P E s t) : InStep Eq (psWaiting s su) (psWaiting t su) :=
  (h.subscribers su).bind fun S T hST => .some (hQ.waiting su S.q T.q hST.q)

theorem setNewMsgCb (h : Lockstep P E s t) (cb : Option Callback) :
    InStep (Lockstep P E) (psSetNewMsgCb s su cb) (psSetNewMsgCb t su cb) := by
  refine (h.subscribers su).bind fun S T hST => .some ?_
  rw [hQ.waiting su S.q T.q hST.q]
  have hset : SubscribersAgree (E su) { S with newMsgCb := cb } { T with newMsgCb := cb } :=
    ⟨hST.q, hST.subs, hST.overflow, rfl, hST.nonEmptyCb⟩
  exact (h.setSubscriber hset).addCallbacks _

theorem setNonEmptyCb (h : Lockstep P E s t) (cb : Option Callback) :
    InStep (Lockstep P E) (psSetNonEmptyCb s su cb) (psSetNonEmptyCb t su cb) := by
  refine (h.subscribers su).bind fun S T hST => .some ?_
  rw [hQ.waiting su S.q T.q hST.q]
  have hset : SubscribersAgree (E su) { S with nonEmptyCb := cb } { T with nonEmptyCb := cb } :=
    ⟨hST.q, hST.subs, hST.overflow, hST.newMsgCb, rfl⟩
  exact (h.setSubscriber hset).addCallbacks _

end Queue

theorem overflow (h : Lockstep P E s t) :
    InStep (Both (Lockstep P E)) (psOverflow s su) (psOverflow t su) := by
  refine (h.subscribers su).bind fun S T hST => .some ⟨?_, ?_⟩
  · rw [hST.overflow]
  · rw [hST.overflow]
    have hset : SubscribersAgree (E su) { S with overflow := T.overflow - T.overflow }
        { T with overflow := T.overflow - T.overflow } :=
      ⟨hST.q, hST.subs, rfl, hST.newMsgCb, hST.nonEmptyCb⟩
    exact h.setSubscriber hset

theorem numSubs (h : Lockstep P E s t) : InStep Eq (psNumSubs s su) (psNumSubs t su) :=
  (h.subscribers su).bind fun _ _ hST => .some (congrArg List.length hST.subs)

/-! ### Subscriptions -/

theorem countOks {f : Bus Q → Str → Option (ℤ × Bus Q)} {g : Bus Q' → Str → Option (ℤ × Bus Q')}
    {topics : List Str} (h : Lockstep P E s t) (hfg : ∀ text ∈ topics, ∀ s t, Lockstep P E s t →
      InStep (Both (Lockstep P E)) (f s text) (g t text)) :
    InStep (Both (Lockstep P E)) (countOks f topics s) (countOks g topics t) := by
  induction topics generalizing s t with
  | nil => exact .some ⟨rfl, h⟩
  | cons text topics ih =>
    refine (hfg text List.mem_cons_self s t h).bind ?_
    rintro ⟨ret, s'⟩ ⟨ret', t'⟩ ⟨rfl, h'⟩
    refine (ih h' fun x hx => hfg x (List.mem_cons_of_mem _ hx)).bind ?_
    rintro ⟨n, s''⟩ ⟨n', t''⟩ ⟨rfl, h''⟩
    exact .some ⟨rfl, h''⟩

section Subscribe
variable (hQ : QueuesAgree P E)
include hQ

theorem pushChildSticky {p : UInt8} {pre : Str} (h : Lockstep P E s t) (hp : P su p) :
    InStep (Lockstep P E) (pushChildSticky s su pre p) (pushChildSticky t su pre p) := by
  rw [PubSub.pushChildSticky, PubSub.pushChildSticky, ← h.topicMap]
  refine .foldlM (fun tm s t h => ?_) _ h
  rw [pushIfChildSticky, pushIfChildSticky, ← h.topicMap]
  refine .read fun tp _ => .ite (fun _ => ?_) fun _ => .some h
  cases tp.sticky with
  | none => exact .some h
  | some msg => exact (h.pushSubscriberQueue hQ hp).bind fun _ _ h' => .some h'.2

theorem subscribeFlags {text : Str} {pflags : Option PsSubFlags} (h : Lockstep P E s t)
    (hp : P su (subFlags text pflags).priority) :
    InStep (Both (Lockstep P E)) (psSubscribeFlags s su text pflags)
      (psSubscribeFlags t su text pflags) := by
  have ha := h.allowed.fetchTopicCreateIfNotExist (cutFlags text)
  rw [psSubscribeFlags, psSubscribeFlags, ← h.topicMap]
  generalize fetchTopicCreateIfNotExist s.topicMap (cutFlags text) = y at ha
  obtain ⟨tm, topicMap⟩ := y
  have h₁ := h.setTopicMap ha
  refine .read fun tp htp => .ite (fun _ => .some ⟨rfl, h₁⟩) fun _ => ?_
  obtain ⟨topic, sls, sticky⟩ := tp
  let sl : SubscriberList := ⟨su, (subFlags text pflags).hidden, (subFlags text pflags).onEmpty,
    (subFlags text pflags).priority.toInt8⟩
  have hsl : P su sl.priority.toUInt8 := hp
  have hjoin : Allowed P (topicMap.modify tm fun _ => ⟨topic, sls ++ [sl], sticky⟩) := by
    refine ha.modify fun _ _ sl' hsl' => ?_
    rcases List.mem_append.mp hsl' with hold | hnew
    · exact ha tm _ htp sl' hold
    · rw [List.mem_singleton.mp hnew]
      exact hsl
  have h₂ := h₁.setTopicMap hjoin
  refine (h₂.subscribers su).bind fun S T hST => ?_
  have hset : SubscribersAgree (E su) { S with subs := S.subs ++ [tm] } { T with subs := T.subs ++ [tm] } :=
    ⟨hST.q, congrArg (· ++ [tm]) hST.subs, hST.overflow, hST.newMsgCb, hST.nonEmptyCb⟩
  have h₃ := h₂.setSubscriber hset
  refine .ite (fun _ => .some ⟨rfl, h₃⟩) fun _ => .ite (fun _ => ?_) fun _ => ?_
  · exact (h₃.pushChildSticky hQ hsl).bind fun _ _ h' => .some ⟨rfl, h'⟩
  · cases sticky with
    | none => exact .some ⟨rfl, h₃⟩
    | some msg => exact (h₃.pushSubscriberQueue hQ hsl).bind fun _ _ h' => .some ⟨rfl, h'.2⟩

theorem subscribeMany {subs : Option (List Str)} (h : Lockstep P E s t)
    (hp : ∀ text ∈ subs.getD [], P su (subFlags text none).priority) :
    InStep (Both (Lockstep P E)) (psSubscribeMany s su subs) (psSubscribeMany t su subs) := by
  cases subs with
  | none => exact .some ⟨rfl, h⟩
  | some texts => exact h.countOks fun text ht _ _ h => h.subscribeFlags hQ (hp text ht)

theorem newSubscriber {n : ℕ} {subs : Option (List Str)} (h : Lockstep P E s t)
    (hp : ∀ text ∈ subs.getD [], P s.subscribers.next (subFlags text none).priority) :
    InStep (Both (Lockstep P E)) (psNewSubscriber s n subs) (psNewSubscriber t n subs) := by
  have hadd : Lockstep P E (addSubscriber s n) (addSubscriber t n) := by
    refine ⟨h.topicMap, h.messages, congrArg (· + 1) h.next, fun i => ?_, h.uuidCtr,
      h.statLiveSubscribers, h.callbacks, h.pushes, h.allowed⟩
    simp only [addSubscriber, Cells.get_alloc, ← h.next]
    exact .ite (fun _ => .some ⟨hQ.new i n, rfl, rfl, rfl, rfl⟩) fun _ => h.subscribers i
  have hmany := hadd.subscribeMany hQ hp
  rw [psNewSubscriber, psNewSubscriber, ← h.next]
  refine hmany.bind fun y z hyz => .some ⟨rfl, ?_⟩
  exact ⟨hyz.2.topicMap, hyz.2.messages, hyz.2.next, hyz.2.subscribers, hyz.2.uuidCtr,
    congrArg (· + 1) hyz.2.statLiveSubscribers, hyz.2.callbacks, hyz.2.pushes, hyz.2.allowed⟩

end Subscribe

theorem removeSubscriber {tm : TopicId} {tp : TopicMap} (h : Lockstep P E s t)
    (htp : s.topicMap.get tm = some tp) :
    InStep (Lockstep P E) (removeSubscriber s su tm tp) (removeSubscriber t su tm tp) := by
  rw [PubSub.removeSubscriber, PubSub.removeSubscriber, ← h.topicMap]
  have hmodify : Allowed P (s.topicMap.modify tm fun _ =>
      { tp with subscribers := tp.subscribers.eraseP fun sl => sl.su = su }) :=
    h.allowed.modify fun _ _ sl hsl => h.allowed tm tp htp sl (List.mem_of_mem_eraseP hsl)
  exact .read fun y hy => .some (h.setTopicMap (hmodify.freeTopicIfEmpty hy))

theorem unsubscribe {text : Str} (h : Lockstep P E s t) :
    InStep (Both (Lockstep P E)) (psUnsubscribe s su text) (psUnsubscribe t su text) := by
  rw [psUnsubscribe, psUnsubscribe, ← h.topicMap]
  cases fetchTopic s.topicMap (cutFlags text) with
  | none => exact .some ⟨rfl, h⟩
  | some tm =>
    refine .read fun tp htp => .ite (fun _ => ?_) fun _ => .some ⟨rfl, h⟩
    refine (h.removeSubscriber htp).bind fun s t h => (h.subscribers su).bind fun S T hST => ?_
    have hset : SubscribersAgree (E su) { S with subs := S.subs.erase tm }
        { T with subs := T.subs.erase tm } :=
      ⟨hST.q, congrArg (List.erase · tm) hST.subs, hST.overflow, hST.newMsgCb, hST.nonEmptyCb⟩
    exact .some ⟨rfl, h.setSubscriber hset⟩

theorem unsubscribeMany {subs : Option (List Str)} (h : Lockstep P E s t) :
    InStep (Both (Lockstep P E)) (psUnsubscribeMany s su subs) (psUnsubscribeMany t su subs) := by
  cases subs with
  | none => exact .some ⟨rfl, h⟩
  | some texts => exact h.countOks fun _ _ _ _ h => h.unsubscribe

theorem unsubscribeAll (h : Lockstep P E s t) :
    InStep (Both (Lockstep P E)) (psUnsubscribeAll s su) (psUnsubscribeAll t su) := by
  refine (h.subscribers su).bind fun S T hST => ?_
  rw [hST.subs]
  refine InStep.bind (.foldlM (fun tm s t h => ?_) _ h) fun s t h => ?_
  · rw [unsubscribeFrom, unsubscribeFrom, ← h.topicMap]
    exact .read fun tp htp => .ite (fun _ => h.removeSubscriber htp) fun _ => .some h
  · exact .some ⟨rfl, h.modifySubscriber fun S T hST =>
      ⟨hST.q, rfl, hST.overflow, hST.newMsgCb, hST.nonEmptyCb⟩⟩

/-! ### Publishing -/

theorem updateSticky {topic : Str} {tm : Option TopicId} (h : Lockstep P E s t) :
    InStep (Both (Lockstep P E)) (updateSticky s msg topic tm) (updateSticky t msg topic tm) := by
  unfold PubSub.updateSticky
  rw [← h.messages, ← h.topicMap]
  refine .read fun m _ => .ite (fun _ => ?_) fun _ => ?_
  · have hset : ∀ tm topicMap tp ms, Allowed P topicMap → topicMap.get tm = some tp →
        Lockstep P E
          { s with messages := ms, topicMap := topicMap.modify tm fun _ => { tp with sticky := some msg } }
          { t with messages := ms, topicMap := topicMap.modify tm fun _ => { tp with sticky := some msg } } :=
      fun tm topicMap tp ms ha htp => (h.setMessages ms).setTopicMap
        (ha.modify fun _ _ => ha tm tp htp)
    cases tm with
    | none =>
      exact .read fun tp htp => .read fun _ _ => .read fun ms _ => .some ⟨rfl,
        hset _ _ tp ms (h.allowed.createTopic topic) htp⟩
    | some tm =>
      exact .read fun tp htp => .read fun _ _ => .read fun ms _ => .some ⟨rfl,
        hset tm _ tp ms h.allowed htp⟩
  · cases tm with
    | none => exact .some ⟨rfl, h⟩
    | some tm =>
      refine .read fun tp htp => ?_
      obtain ⟨name, sls, sticky⟩ := tp
      cases sticky with
      | none => exact .some ⟨rfl, h⟩
      | some old =>
        have hmodify : Allowed P (s.topicMap.modify tm fun _ => ⟨name, sls, none⟩) :=
          h.allowed.modify fun _ _ => h.allowed tm ⟨name, sls, some old⟩ htp
        exact .read fun ms _ => .read fun y hy => .some ⟨rfl, (h.setMessages ms).setTopicMap
          (hmodify.freeTopicIfEmpty hy)⟩

section Publish
variable (hQ : QueuesAgree P E)
include hQ

theorem deliver {via : Str} {sls : List SubscriberList} {ret : ℕ} (h : Lockstep P E s t)
    (hp : ∀ sl ∈ sls, P sl.su sl.priority.toUInt8) :
    InStep (Both (Lockstep P E)) (deliver msg via sls ret s) (deliver msg via sls ret t) := by
  induction sls generalizing ret s t with
  | nil => exact .some ⟨rfl, h⟩
  | cons sl sls ih =>
    have hsls : ∀ sl ∈ sls, P sl.su sl.priority.toUInt8 := fun x hx => hp x (List.mem_cons_of_mem _ hx)
    refine (h.waiting hQ).bind ?_
    rintro w _ rfl
    refine .ite (fun _ => ih h hsls) fun _ => ?_
    refine (h.pushSubscriberQueue hQ (hp sl List.mem_cons_self)).bind ?_
    rintro ⟨r, s'⟩ ⟨r', t'⟩ ⟨rfl, h'⟩
    exact ih h' hsls

theorem deliverAt {topic : Str} {tm : Option TopicId} {ret : ℕ} (h : Lockstep P E s t) :
    InStep (Both (Lockstep P E)) (deliverAt msg topic tm ret s) (deliverAt msg topic tm ret t) := by
  cases tm with
  | none => exact .some ⟨rfl, h⟩
  | some tm =>
    rw [PubSub.deliverAt, PubSub.deliverAt, ← h.topicMap]
    exact .read fun tp htp => h.deliver hQ (h.allowed tm tp htp)

theorem publishLoop (fuel : ℕ) {first : Bool} {topic : Str} {ret : ℕ} (h : Lockstep P E s t) :
    InStep (Both (Lockstep P E)) (publishLoop msg fuel first topic ret s)
      (publishLoop msg fuel first topic ret t) := by
  induction fuel generalizing first topic ret s t with
  | zero => exact .none
  | succ fuel ih =>
    rw [publishLoop_succ, publishLoop_succ, ← h.topicMap]
    have hfirst : InStep (Both (Lockstep P E))
        (if first then PubSub.updateSticky s msg topic (fetchTopic s.topicMap topic)
          else some (fetchTopic s.topicMap topic, s))
        (if first then PubSub.updateSticky t msg topic (fetchTopic s.topicMap topic)
          else some (fetchTopic s.topicMap topic, t)) :=
      .ite (fun _ => h.updateSticky) fun _ => .some ⟨rfl, h⟩
    refine hfirst.bind ?_
    rintro ⟨tm, s₁⟩ ⟨tm', t₁⟩ ⟨rfl, h₁⟩
    refine (h₁.deliverAt hQ).bind ?_
    rintro ⟨n, s₂⟩ ⟨n', t₂⟩ ⟨rfl, h₂⟩
    dsimp only
    rw [← h₂.messages]
    refine .read fun m _ => .ite (fun _ => .some ⟨rfl, h₂⟩) fun _ => ?_
    exact .ite (fun _ => .some ⟨rfl, h₂⟩) fun _ => ih h₂

theorem publish {m : Option MsgId} (h : Lockstep P E s t) :
    InStep (Both (Lockstep P E)) (psPublish s m) (psPublish t m) := by
  cases m with
  | none => exact .some ⟨rfl, h⟩
  | some msg =>
    rw [psPublish, psPublish, ← h.messages]
    refine .read fun m _ => .read fun text _ => (h.publishLoop hQ _).bind ?_
    rintro ⟨n, s'⟩ ⟨n', t'⟩ ⟨rfl, h'⟩
    dsimp only
    rw [← h'.messages]
    exact .read fun ms _ => .some ⟨rfl, h'.setMessages ms⟩

end Publish

theorem cleanSticky {pre : Str} (h : Lockstep P E s t) :
    InStep (Lockstep P E) (psCleanSticky s pre) (psCleanSticky t pre) := by
  rw [psCleanSticky, psCleanSticky, ← h.topicMap]
  refine .foldlM (fun tm s t h => ?_) _ h
  rw [cleanTopic, cleanTopic, ← h.topicMap, ← h.messages]
  refine .read fun tp htp => .ite (fun _ => ?_) fun _ => .some h
  obtain ⟨name, sls, sticky⟩ := tp
  cases sticky with
  | none => exact .some h
  | some old =>
    have hmodify : Allowed P (s.topicMap.modify tm fun _ => ⟨name, sls, none⟩) :=
      h.allowed.modify fun _ _ => h.allowed tm ⟨name, sls, some old⟩ htp
    exact .read fun ms _ => .read fun y hy => .some
      ((h.setMessages ms).setTopicMap (hmodify.freeTopicIfEmpty hy))

theorem subsCount (h : Lockstep P E s t) (topic : Option Str) :
    psSubsCount s topic = psSubsCount t topic := by
  have hloop : ∀ fuel topic count, subsCountLoop s fuel topic count = subsCountLoop t fuel topic count := by
    intro fuel
    induction fuel with
    | zero => exact fun _ _ => rfl
    | succ fuel ih =>
      intro topic count
      simp only [subsCountLoop, h.topicMap, ih]
  cases topic with
  | none => rfl
  | some topic =>
    rw [psSubsCount, psSubsCount]
    simp only [hloop]

/-! ### Calls made of calls -/

section Compound
variable (hQ : QueuesAgree P E)
include hQ

/-- After the flush there is nothing to free. -/
theorem freeSubscriber (h : Lockstep P E s t) :
    InStep (Lockstep P E) (psFreeSubscriber s su) (psFreeSubscriber t su) := by
  refine h.unsubscribeAll.bind ?_
  rintro ⟨n, s₁⟩ ⟨n', t₁⟩ ⟨rfl, h₁⟩
  refine (h₁.flush hQ).returned.bind ?_
  rintro ⟨k, s₂⟩ ⟨k', t₂⟩ ⟨⟨rfl, h₂⟩, hflush⟩
  refine (h₂.subscribers su).returned.bind fun S T hS => ?_
  obtain ⟨hST, hS⟩ := hS
  obtain ⟨S₁, q, ms, hget, hf⟩ := psFlush_flushed hflush
  have hempty : S.q.items = [] := by
    rw [hf.state, Cells.get_modify_self, hget, Option.map_some] at hS
    cases hS
    exact hf.empty
  have hempty' : T.q.items = [] := by
    have hwaiting := hQ.waiting su S.q T.q hST.q
    rw [S.q.waiting_eq, T.q.waiting_eq, hempty] at hwaiting
    exact List.eq_nil_of_length_eq_zero hwaiting.symm
  rw [IdleQueue.free_empty hempty, IdleQueue.free_empty hempty']
  refine .some ⟨h₂.topicMap, h₂.messages, h₂.next, fun i => ?_, h₂.uuidCtr,
    congrArg (· - 1) h₂.statLiveSubscribers, h₂.callbacks, h₂.pushes, h₂.allowed⟩
  simp only [Cells.get_free]
  exact .ite (fun _ => .none) fun _ => h₂.subscribers i

theorem call {timeout : Int64} (h : Lockstep P E s t)
    (hp : P s.subscribers.next (subFlags (callTopic (s.uuidCtr + 1)) none).priority) :
    InStep (Both (Lockstep P E)) (psCall s msg timeout) (psCall t msg timeout) := by
  have hp' : ∀ text ∈ (some [callTopic (s.uuidCtr + 1)]).getD [],
      P s.subscribers.next (subFlags text none).priority := by
    intro text ht
    rw [List.mem_singleton.mp ht]
    exact hp
  rw [psCall, psCall, ← h.messages, ← h.uuidCtr]
  refine .read fun ms _ => ?_
  have h₁ : Lockstep P E { s with uuidCtr := s.uuidCtr + 1, messages := ms }
      { t with uuidCtr := s.uuidCtr + 1, messages := ms } :=
    ⟨h.topicMap, rfl, h.next, h.subscribers, rfl, h.statLiveSubscribers, h.callbacks, h.pushes,
      h.allowed⟩
  refine (h₁.newSubscriber hQ hp').bind ?_
  rintro ⟨su, s₂⟩ ⟨su', t₂⟩ ⟨rfl, h₂⟩
  refine (h₂.publish hQ).bind ?_
  rintro ⟨n, s₃⟩ ⟨n', t₃⟩ ⟨rfl, h₃⟩
  have hfree : ∀ (m : Option MsgId) s t, Lockstep P E s t → InStep (Both (Lockstep P E))
      ((psFreeSubscriber s su).bind fun s => some (m, s))
      ((psFreeSubscriber t su).bind fun t => some (m, t)) :=
    fun m s t h => (h.freeSubscriber hQ).bind fun _ _ h' => .some ⟨rfl, h'⟩
  refine .ite (fun _ => hfree none s₃ t₃ h₃) fun _ => (h₃.get hQ).bind ?_
  rintro ⟨m, s₄⟩ ⟨m', t₄⟩ ⟨rfl, h₄⟩
  exact hfree m s₄ t₄ h₄

theorem waitOne {topic : Str} {timeout : Int64} (h : Lockstep P E s t)
    (hp : P s.subscribers.next (subFlags topic none).priority) :
    InStep (Both (Lockstep P E)) (psWaitOne s topic timeout) (psWaitOne t topic timeout) := by
  have hp' : ∀ text ∈ (some [topic]).getD [], P s.subscribers.next (subFlags text none).priority := by
    intro text ht
    rw [List.mem_singleton.mp ht]
    exact hp
  refine (h.newSubscriber hQ hp').bind ?_
  rintro ⟨su, s₁⟩ ⟨su', t₁⟩ ⟨rfl, h₁⟩
  refine (h₁.get hQ).bind ?_
  rintro ⟨m, s₂⟩ ⟨m', t₂⟩ ⟨rfl, h₂⟩
  exact (h₂.freeSubscriber hQ).bind fun _ _ h' => .some ⟨rfl, h'⟩

end Compound

end Lockstep

end PubSub
