import PubSub.Bus.Subscribe

/-! Publishing, the sticky messages, and the two calls built on a temporary
subscriber. -/

namespace PubSub

open Lib

variable {Q : Type → Type} [PsQueue Q] [LawfulPsQueue Q]

/-- What the first round of `ps_publish` does to the sticky message of `topic`,
where `tm` is the topic that was fetched. The topic to deliver to is returned. -/
def updateSticky (s : Bus Q) (msg : MsgId) (topic : Str) (tm : Option TopicId) :
    Option (Option TopicId × Bus Q) := do
  let m ← s.messages.cells.get msg
  if m.sticky then do
    let (tm, topicMap) := match tm with
      | some tm => (tm, s.topicMap)
      | none => createTopic s.topicMap topic
    let t ← topicMap.get tm
    let ms ← psUnrefMsg s.messages t.sticky
    let ms ← psRefMsg ms (some msg)
    let topicMap := topicMap.modify tm fun _ => { t with sticky := some msg }
    some (some tm, { s with messages := ms, topicMap := topicMap })
  else
    match tm with
    | none => some (none, s)
    | some tm => do
      let t ← s.topicMap.get tm
      match t.sticky with
      | none => some (some tm, s)
      | some old => do
        let ms ← psUnrefMsg s.messages (some old)
        let topicMap := s.topicMap.modify tm fun _ => { t with sticky := none }
        let (freed, topicMap) ← freeTopicIfEmpty topicMap tm
        some (if freed then none else some tm, { s with messages := ms, topicMap := topicMap })

/-- The loop over the subscribers of one topic, with the count so far. -/
def deliver (msg : MsgId) (via : Str) : List SubscriberList → ℕ → Bus Q → Option (ℕ × Bus Q)
  | [], ret, s => some (ret, s)
  | sl :: sls, ret, s => do
    let waiting ← psWaiting s sl.su
    if sl.onEmpty && waiting ≠ 0 then
      deliver msg via sls ret s
    else do
      let (r, s) ← pushSubscriberQueue s sl.su via msg sl.priority.toUInt8
      deliver msg via sls (if r = 0 && !sl.hidden then ret + 1 else ret) s

/-- One round's delivery at the topic that was fetched. -/
def deliverAt (msg : MsgId) (topic : Str) (tm : Option TopicId) (ret : ℕ) (s : Bus Q) :
    Option (ℕ × Bus Q) :=
  match tm with
  | none => some (ret, s)
  | some tm => do
    let t ← s.topicMap.get tm
    deliver msg topic t.subscribers ret s

/-- The loop `for (;;)` of `ps_publish`, with a bound on its rounds. -/
def publishLoop (msg : MsgId) : ℕ → Bool → Str → ℕ → Bus Q → Option (ℕ × Bus Q)
  | 0, _, _, _, _ => none
  | fuel + 1, first, topic, ret, s => do
    let tm := fetchTopic s.topicMap topic
    let (tm, s) ← if first then updateSticky s msg topic tm else some (tm, s)
    let (ret, s) ← deliverAt msg topic tm ret s
    let m ← s.messages.cells.get msg
    if m.nonrecursive then some (ret, s)
    else if topic = [] then some (ret, s)
    else publishLoop msg fuel false (truncate topic) ret s

/-- A round of `ps_publish`. -/
theorem publishLoop_succ (msg : MsgId) (fuel : ℕ) (first : Bool) (topic : Str) (ret : ℕ) (s : Bus Q) :
    publishLoop msg (fuel + 1) first topic ret s =
      (if first then updateSticky s msg topic (fetchTopic s.topicMap topic)
        else some (fetchTopic s.topicMap topic, s)).bind fun y =>
      (deliverAt msg topic y.1 ret y.2).bind fun z =>
      (z.2.messages.cells.get msg).bind fun m =>
        if m.nonrecursive then some z
        else if topic = [] then some z
        else publishLoop msg fuel false (truncate topic) z.1 z.2 := by
  cases first with
  | false => rfl
  | true => rfl

/-- `ps_publish`. -/
def psPublish (s : Bus Q) (msg : Option MsgId) : Option (ℕ × Bus Q) :=
  match msg with
  | none => some (0, s)
  | some msg => do
    let m ← s.messages.cells.get msg
    let msgTopic ← m.topic
    let topic := cutFlags msgTopic
    let (ret, s) ← publishLoop msg (topic.length + 1) true topic 0 s
    let ms ← psUnrefMsg s.messages (some msg)
    some (ret, { s with messages := ms })

/-- One round of the loop in `ps_clean_sticky`. -/
def cleanTopic (pre : Str) (s : Bus Q) (tm : TopicId) : Option (Bus Q) := do
  let t ← s.topicMap.get tm
  if inSubtree pre t.topic then
    match t.sticky with
    | none => some s
    | some msg => do
      let ms ← psUnrefMsg s.messages (some msg)
      let topicMap := s.topicMap.modify tm fun _ => { t with sticky := none }
      let (_, topicMap) ← freeTopicIfEmpty topicMap tm
      some { s with messages := ms, topicMap := topicMap }
  else some s

/-- `ps_clean_sticky`. -/
def psCleanSticky (s : Bus Q) (pre : Str) : Option (Bus Q) :=
  s.topicMap.ids.foldlM (cleanTopic pre) s

/-- The loop of `ps_subs_count`, with a bound on its rounds. -/
def subsCountLoop (s : Bus Q) : ℕ → Str → ℕ → Option ℕ
  | 0, _, _ => none
  | fuel + 1, topic, count =>
    if topic.length = 0 then some count
    else do
      let count ← match fetchTopic s.topicMap topic with
        | none => some count
        | some tm => do
          let t ← s.topicMap.get tm
          some (count + t.subscribers.countP fun sl => !sl.hidden)
      subsCountLoop s fuel (truncate topic) count

/-- `ps_subs_count`. -/
def psSubsCount (s : Bus Q) (topic : Option Str) : Option ℕ :=
  match topic with
  | none => some 0
  | some topic =>
    if topic.length = 0 then some 0
    else
      let topic := cutFlags topic
      subsCountLoop s (topic.length + 1) topic 0

/-- The `rtopic` of the call that took the value `n` from the counter. -/
def callTopic (n : UInt32) : Str := "$r.".toList ++ Nat.toDigits 10 n.toNat

/-- `ps_call`. -/
def psCall (s : Bus Q) (msg : MsgId) (timeout : Int64) : Option (Option MsgId × Bus Q) := do
  let s := { s with uuidCtr := s.uuidCtr + 1 }
  let rtopic := callTopic s.uuidCtr
  let ms ← psMsgSetRtopic s.messages msg (some rtopic)
  let (su, s) ← psNewSubscriber { s with messages := ms } 1 (some [rtopic])
  let (n, s) ← psPublish s (some msg)
  let (retMsg, s) ← if n = 0 then some (none, s) else psGet s su timeout
  let s ← psFreeSubscriber s su
  some (retMsg, s)

/-- `ps_wait_one`. -/
def psWaitOne (s : Bus Q) (topic : Str) (timeout : Int64) : Option (Option MsgId × Bus Q) := do
  let (su, s) ← psNewSubscriber s 1 (some [topic])
  let (retMsg, s) ← psGet s su timeout
  let s ← psFreeSubscriber s su
  some (retMsg, s)

end PubSub
