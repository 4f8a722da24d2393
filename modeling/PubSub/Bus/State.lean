import PubSub.Lib.Cells
import PubSub.Message
import PubSub.Queue.Idle

/-! The state of `pubsub.c`: the topic table, the messages and the subscribers,
each a heap of cells, and the counters. A call is a function to `Option`; `none`
is undefined behaviour (a freed object, a null topic, an index past the end of an
array) or a wait without end. Three fields are records that the program does not
keep: `callbacks` and `pushes`, oldest first, and `refWrap`. -/

namespace PubSub

open Lib

abbrev MsgId := ℕ
abbrev SubId := ℕ
abbrev TopicId := ℕ

/-- `subscriber_list_t`. -/
structure SubscriberList where
  su : SubId
  hidden : Bool
  onEmpty : Bool
  priority : Int8
  deriving DecidableEq

/-- `topic_map_t`. -/
structure TopicMap where
  topic : Str
  subscribers : List SubscriberList
  sticky : Option MsgId
  deriving DecidableEq

/-- `ps_new_msg_cb_t` and `ps_non_empty_cb_t`: which function of the client. -/
abbrev Callback := ℕ

/-- `ps_subscriber_t`. -/
structure PsSubscriber (Q : Type → Type) [PsQueue Q] [LawfulPsQueue Q] where
  q : IdleQueue Q MsgId
  subs : List TopicId
  overflow : UInt32
  newMsgCb : Option Callback
  nonEmptyCb : Option Callback

/-- `ps_sub_flags_t`. -/
structure PsSubFlags where
  hidden : Bool
  onEmpty : Bool
  noSticky : Bool
  childSticky : Bool
  priority : UInt8
  deriving DecidableEq

inductive CallbackKind where
  | newMsg | nonEmpty
  deriving DecidableEq

/-- A callback made to the client. -/
structure CallbackCall where
  su : SubId
  kind : CallbackKind
  cb : Callback
  deriving DecidableEq

/-- A call of `push_subscriber_queue`, made for the subscription to `via`. -/
structure Push where
  su : SubId
  via : Str
  msg : MsgId
  priority : UInt8
  ret : QueueRet
  deriving DecidableEq

/-- The messages that exist, their number as `stat_live_msg` counts it, and
whether a reference counter has ever gone from its greatest value to 0. -/
structure Messages where
  cells : Cells PsMsg
  statLiveMsg : UInt32
  refWrap : Bool

structure Bus (Q : Type → Type) [PsQueue Q] [LawfulPsQueue Q] where
  topicMap : Cells TopicMap
  messages : Messages
  subscribers : Cells (PsSubscriber Q)
  uuidCtr : UInt32
  statLiveSubscribers : UInt32
  callbacks : List CallbackCall
  pushes : List Push

variable {Q : Type → Type} [PsQueue Q] [LawfulPsQueue Q]

namespace Bus

/-- The static variables at program start. -/
def init : Bus Q where
  topicMap := .empty
  messages := { cells := .empty, statLiveMsg := 0, refWrap := false }
  subscribers := .empty
  uuidCtr := 0
  statLiveSubscribers := 0
  callbacks := []
  pushes := []

def modifySubscriber (s : Bus Q) (su : SubId) (f : PsSubscriber Q → PsSubscriber Q) : Bus Q :=
  { s with subscribers := s.subscribers.modify su f }

def modifyTopic (s : Bus Q) (tm : TopicId) (f : TopicMap → TopicMap) : Bus Q :=
  { s with topicMap := s.topicMap.modify tm f }

end Bus

/-! ### References -/

/-- `ps_ref_msg`. -/
def psRefMsg (ms : Messages) : Option MsgId → Option Messages
  | none => some ms
  | some msg => do
    let m ← ms.cells.get msg
    some { ms with
      cells := ms.cells.modify msg fun m => { m with ref := m.ref + 1 }
      refWrap := ms.refWrap || m.ref + 1 = 0 }

/-- `ps_unref_msg`. -/
def psUnrefMsg (ms : Messages) : Option MsgId → Option Messages
  | none => some ms
  | some msg => do
    let m ← ms.cells.get msg
    if m.ref - 1 = 0 then
      some { ms with cells := ms.cells.free msg, statLiveMsg := ms.statLiveMsg - 1 }
    else
      some { ms with cells := ms.cells.modify msg fun m => { m with ref := m.ref - 1 } }

/-! ### Messages -/

/-- A message in memory of its own. -/
def allocMsg (ms : Messages) (msg : PsMsg) : MsgId × Messages :=
  (ms.cells.next, { ms with cells := ms.cells.alloc msg, statLiveMsg := ms.statLiveMsg + 1 })

/-- `ps_new_msg`. -/
def psNewMsg (ms : Messages) (topic : Option Str) (flags : UInt32) (args : PsValue) :
    Option (Option MsgId × Messages) :=
  match topic with
  | none => some (none, ms)
  | some topic => do
    let msg : PsMsg :=
      { ref := 1, topic := some topic, rtopic := none, flags := flags, priority := 0, value := .nil }
    let msg ← psMsgSetVvalue msg flags args
    let (msg, ms) := allocMsg ms msg
    some (some msg, ms)

/-- `ps_dup_msg`. -/
def psDupMsg (ms : Messages) (msgOrig : MsgId) : Option (MsgId × Messages) := do
  let m ← ms.cells.get msgOrig
  some (allocMsg ms { m with ref := 1, value := dupValue m })

/-- `ps_msg_set_topic`. -/
def psMsgSetTopic (ms : Messages) (msg : MsgId) (topic : Option Str) : Option Messages := do
  let m ← ms.cells.get msg
  some { ms with cells := ms.cells.modify msg fun _ => { m with topic := topic } }

/-- `ps_msg_set_rtopic`. -/
def psMsgSetRtopic (ms : Messages) (msg : MsgId) (rtopic : Option Str) : Option Messages := do
  let m ← ms.cells.get msg
  some { ms with cells := ms.cells.modify msg fun _ => { m with rtopic := rtopic } }

/-- `ps_msg_set_value`. -/
def psMsgSetValue (ms : Messages) (msg : MsgId) (flags : UInt32) (args : PsValue) :
    Option Messages := do
  let m ← ms.cells.get msg
  let m ← psMsgSetVvalue m flags args
  some { ms with cells := ms.cells.modify msg fun _ => m }

/-! ### The topic table -/

/-- `free_topic_if_empty`, which tells whether it freed the topic. -/
def freeTopicIfEmpty (topicMap : Cells TopicMap) (tm : TopicId) :
    Option (Bool × Cells TopicMap) := do
  let t ← topicMap.get tm
  if t.subscribers = [] ∧ t.sticky = none then some (true, topicMap.free tm)
  else some (false, topicMap)

/-- `create_topic`. -/
def createTopic (topicMap : Cells TopicMap) (topic : Str) : TopicId × Cells TopicMap :=
  (topicMap.next, topicMap.alloc { topic := topic, subscribers := [], sticky := none })

/-- `fetch_topic`. -/
def fetchTopic (topicMap : Cells TopicMap) (topic : Str) : Option TopicId :=
  topicMap.find? fun tm => tm.topic = topic

/-- `fetch_topic_create_if_not_exist`. -/
def fetchTopicCreateIfNotExist (topicMap : Cells TopicMap) (topic : Str) :
    TopicId × Cells TopicMap :=
  match fetchTopic topicMap topic with
  | some tm => (tm, topicMap)
  | none => createTopic topicMap topic

end PubSub
