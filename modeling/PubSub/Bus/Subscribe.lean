import PubSub.Bus.Delivery

/-! Subscriptions, and the life of a subscriber. -/

namespace PubSub

open Lib

variable {Q : Type → Type} [PsQueue Q] [LawfulPsQueue Q]

/-- The loop of `ps_subscribe_flags` over the text after the first space. -/
def parseFlags (flags : PsSubFlags) : Str → PsSubFlags
  | [] => flags
  | c :: flStr =>
    let flags :=
      if c = 'h' then { flags with hidden := true }
      else if c = 's' then { flags with noSticky := true }
      else if c = 'S' then { flags with childSticky := true }
      else if c = 'e' then { flags with onEmpty := true }
      else if c = 'p' then
        match flStr with
        | d :: _ => if d.isDigit then { flags with priority := d.toUInt8 - '0'.toUInt8 } else flags
        | [] => flags
      else flags
    parseFlags flags flStr

/-- The flags that a null pointer stands for. -/
def noSubFlags : PsSubFlags := ⟨false, false, false, false, 0⟩

/-- The flags of a subscription: those passed, then those in the topic string. -/
def subFlags (topicOrig : Str) (pflags : Option PsSubFlags) : PsSubFlags :=
  let flags := pflags.getD noSubFlags
  match flagText topicOrig with
  | none => flags
  | some flStr => parseFlags flags flStr

/-- `ps_subscribe_flags`. -/
def psSubscribeFlags (s : Bus Q) (su : SubId) (topicOrig : Str) (pflags : Option PsSubFlags) :
    Option (ℤ × Bus Q) := do
  let topic := cutFlags topicOrig
  let flags := subFlags topicOrig pflags
  let (tm, topicMap) := fetchTopicCreateIfNotExist s.topicMap topic
  let s := { s with topicMap := topicMap }
  let t ← s.topicMap.get tm
  if t.subscribers.any fun sl => sl.su = su then
    some (-1, s)
  else
    let sl : SubscriberList := ⟨su, flags.hidden, flags.onEmpty, flags.priority.toInt8⟩
    let s := s.modifyTopic tm fun _ => { t with subscribers := t.subscribers ++ [sl] }
    let S ← s.subscribers.get su
    let s := s.modifySubscriber su fun _ => { S with subs := S.subs ++ [tm] }
    if flags.noSticky then some (0, s)
    else if flags.childSticky then do
      let s ← pushChildSticky s su topic sl.priority.toUInt8
      some (0, s)
    else
      match t.sticky with
      | none => some (0, s)
      | some msg => do
        let (_, s) ← pushSubscriberQueue s su topic msg sl.priority.toUInt8
        some (0, s)

/-- `ps_subscribe`. -/
def psSubscribe (s : Bus Q) (su : SubId) (topicOrig : Str) : Option (ℤ × Bus Q) :=
  psSubscribeFlags s su topicOrig none

/-- A loop over a list of topics that counts the calls that return 0. -/
def countOks (f : Bus Q → Str → Option (ℤ × Bus Q)) : List Str → Bus Q → Option (ℕ × Bus Q)
  | [], s => some (0, s)
  | topic :: topics, s => do
    let (ret, s) ← f s topic
    let (n, s) ← countOks f topics s
    some (if ret = 0 then n + 1 else n, s)

/-- `ps_subscribe_many`. -/
def psSubscribeMany (s : Bus Q) (su : SubId) (subs : Option (List Str)) : Option (ℕ × Bus Q) :=
  match subs with
  | none => some (0, s)
  | some subs => countOks (fun s topic => psSubscribe s su topic) subs s

/-- `tm`'s list without the entry of `su`, and the topic freed if that leaves it
empty. -/
def removeSubscriber (s : Bus Q) (su : SubId) (tm : TopicId) (t : TopicMap) : Option (Bus Q) := do
  let t := { t with subscribers := t.subscribers.eraseP fun sl => sl.su = su }
  let (_, topicMap) ← freeTopicIfEmpty (s.topicMap.modify tm fun _ => t) tm
  some { s with topicMap := topicMap }

/-- `ps_unsubscribe`. -/
def psUnsubscribe (s : Bus Q) (su : SubId) (otopic : Str) : Option (ℤ × Bus Q) := do
  let topic := cutFlags otopic
  match fetchTopic s.topicMap topic with
  | none => some (-1, s)
  | some tm => do
    let t ← s.topicMap.get tm
    if t.subscribers.any fun sl => sl.su = su then do
      let s ← removeSubscriber s su tm t
      let S ← s.subscribers.get su
      some (0, s.modifySubscriber su fun _ => { S with subs := S.subs.erase tm })
    else some (-1, s)

/-- `ps_unsubscribe_many`. -/
def psUnsubscribeMany (s : Bus Q) (su : SubId) (subs : Option (List Str)) : Option (ℕ × Bus Q) :=
  match subs with
  | none => some (0, s)
  | some subs => countOks (fun s topic => psUnsubscribe s su topic) subs s

/-- One round of the loop in `ps_unsubscribe_all`. -/
def unsubscribeFrom (su : SubId) (s : Bus Q) (tm : TopicId) : Option (Bus Q) := do
  let t ← s.topicMap.get tm
  if t.subscribers.any fun sl => sl.su = su then removeSubscriber s su tm t else some s

/-- `ps_unsubscribe_all`. -/
def psUnsubscribeAll (s : Bus Q) (su : SubId) : Option (ℕ × Bus Q) := do
  let S ← s.subscribers.get su
  let s ← S.subs.foldlM (unsubscribeFrom su) s
  some (S.subs.length, s.modifySubscriber su fun S => { S with subs := [] })

/-- `ps_new_subscriber`. -/
def psNewSubscriber (s : Bus Q) (queueSize : ℕ) (subs : Option (List Str)) :
    Option (SubId × Bus Q) := do
  let su := s.subscribers.next
  let S : PsSubscriber Q :=
    { q := .new queueSize, subs := [], overflow := 0, newMsgCb := none, nonEmptyCb := none }
  let s := { s with subscribers := s.subscribers.alloc S }
  let (_, s) ← psSubscribeMany s su subs
  some (su, { s with statLiveSubscribers := s.statLiveSubscribers + 1 })

/-- `ps_free_subscriber`. -/
def psFreeSubscriber (s : Bus Q) (su : SubId) : Option (Bus Q) := do
  let (_, s) ← psUnsubscribeAll s su
  let (_, s) ← psFlush s su
  let S ← s.subscribers.get su
  let queued ← PsQueue.psFreeQueue S.q.raw
  let ms ← queued.foldlM (fun ms msg => psUnrefMsg ms (some msg)) s.messages
  some { s with
    messages := ms
    subscribers := s.subscribers.free su
    statLiveSubscribers := s.statLiveSubscribers - 1 }

end PubSub
