import PubSub.Bus.Api
import PubSub.Exchange.Board
import PubSub.Queue.Ordered

/-! What the bus is for. An exchange has a board of topics, the letters that were
ever written, and one inbox for each subscriber. Nothing in it is counted,
shared or freed: no references, no addresses of topics, no lists that point at
each other, no loops over truncated names. It answers the calls of the interface
as its users understand them. `rank` is the rank of a priority. -/

namespace PubSub

open Lib

/-! ### Inboxes -/

/-- At most `size` messages, higher ranks first. -/
@[ext]
structure Inbox where
  size : ℕ
  waiting : List (ℕ × MsgId)
  fits : waiting.length ≤ size
  sorted : waiting.Pairwise fun a b => b.1 ≤ a.1
  lost : UInt32
  newMsgCb : Option Callback
  nonEmptyCb : Option Callback

namespace Inbox

def new (size : ℕ) : Inbox := ⟨size, [], Nat.zero_le _, List.Pairwise.nil, 0, none, none⟩

theorem sorted_put (B : Inbox) (e : ℕ × MsgId) :
    (boundedInsert Outranks B.size e B.waiting).1.Pairwise fun a b => b.1 ≤ a.1 := by
  apply pairwise_boundedInsert _ _ _ B.fits B.sorted
  · exact fun a b c hab hbc => Nat.le_trans hbc hab
  · exact fun b h => Nat.le_of_lt h
  · exact fun b h => Nat.le_of_not_lt h

/-- A message goes behind those of its rank. If there was no room, the last one is lost. -/
def put (B : Inbox) (e : ℕ × MsgId) : Inbox :=
  { B with
    waiting := (boundedInsert Outranks B.size e B.waiting).1
    fits := length_boundedInsert_le B.fits
    sorted := B.sorted_put e
    lost := if B.waiting.length < B.size then B.lost else B.lost + 1 }

/-- The first message leaves. -/
def take (B : Inbox) : Inbox :=
  { B with
    waiting := B.waiting.tail
    fits := Nat.le_trans (List.tail_sublist _).length_le B.fits
    sorted := B.sorted.sublist (List.tail_sublist _) }

def clear (B : Inbox) : Inbox :=
  { B with waiting := [], fits := Nat.zero_le _, sorted := List.Pairwise.nil }

/-- The callbacks when a message comes in. -/
def rings (B : Inbox) (su : SubId) : List CallbackCall :=
  (if B.waiting = [] then (B.nonEmptyCb.map (CallbackCall.mk su .nonEmpty)).toList else []) ++
    (B.newMsgCb.map (CallbackCall.mk su .newMsg)).toList

end Inbox

/-! ### The exchange -/

structure Exchange where
  board : Board
  letters : List PsMsg
  inboxes : Cells Inbox
  calls : UInt32
  callbacks : List CallbackCall

namespace Exchange

def start : Exchange := ⟨.empty, [], .empty, 0, []⟩

/-- The calls on a list of topics that return 0. -/
def each (f : Exchange → Str → Option (ℤ × Exchange)) : List Str → Exchange → Option (ℕ × Exchange)
  | [], x => some (0, x)
  | t :: ts, x => do
    let (r, x) ← f x t
    let (n, x) ← each f ts x
    some (if r = 0 then n + 1 else n, x)

section Letters
variable (x : Exchange)

def known (msg : MsgId) : Bool := msg < x.letters.length

def addLetter (m : PsMsg) : MsgId × Exchange :=
  (x.letters.length, { x with letters := x.letters ++ [m] })

def editLetter (msg : MsgId) (f : PsMsg → Option PsMsg) : Option Exchange := do
  let m ← x.letters[msg]?
  let m ← f m
  some { x with letters := x.letters.set msg m }

def newMsg (topic : Option Str) (flags : UInt32) (args : PsValue) :
    Option (Option MsgId × Exchange) :=
  match topic with
  | none => some (none, x)
  | some topic => do
    let m ← psMsgSetVvalue ⟨0, some topic, none, flags, 0, .nil⟩ flags args
    some ((x.addLetter m).map some id)

def dupMsg (msg : MsgId) : Option (MsgId × Exchange) := do
  let m ← x.letters[msg]?
  some (x.addLetter { m with value := dupValue m })

def setTopic (msg : MsgId) (topic : Option Str) : Option Exchange :=
  x.editLetter msg fun m => some { m with topic := topic }

def setRtopic (msg : MsgId) (rtopic : Option Str) : Option Exchange :=
  x.editLetter msg fun m => some { m with rtopic := rtopic }

def setValue (msg : MsgId) (flags : UInt32) (args : PsValue) : Option Exchange :=
  x.editLetter msg fun m => psMsgSetVvalue m flags args

end Letters

section Reading
variable (x : Exchange)

def setInbox (su : SubId) (B : Inbox) : Exchange :=
  { x with inboxes := x.inboxes.modify su fun _ => B }

def get (su : SubId) (timeout : Int64) : Option (Option MsgId × Exchange) := do
  let B ← x.inboxes.get su
  match B.waiting with
  | [] => if timeout.toInt32 < 0 then none else some (none, x)
  | (_, msg) :: _ => some (some msg, x.setInbox su B.take)

def flush (su : SubId) : Option (ℕ × Exchange) := do
  let B ← x.inboxes.get su
  some (B.waiting.length, x.setInbox su B.clear)

def waiting (su : SubId) : Option ℕ := (x.inboxes.get su).map fun B => B.waiting.length

/-- The number of losses, as an `int`. -/
def overflow (su : SubId) : Option (ℤ × Exchange) := do
  let B ← x.inboxes.get su
  some (B.lost.toInt32.toInt, x.setInbox su { B with lost := 0 })

def setNewMsgCb (su : SubId) (cb : Option Callback) : Option Exchange := do
  let B ← x.inboxes.get su
  some { x.setInbox su { B with newMsgCb := cb } with
    callbacks := x.callbacks ++ installCallbacks su .newMsg cb B.waiting.length }

def setNonEmptyCb (su : SubId) (cb : Option Callback) : Option Exchange := do
  let B ← x.inboxes.get su
  some { x.setInbox su { B with nonEmptyCb := cb } with
    callbacks := x.callbacks ++ installCallbacks su .nonEmpty cb B.waiting.length }

end Reading

section Leaving
variable (x : Exchange)

def editTopic (topic : Str) (f : TopicMap → TopicMap) : Exchange :=
  { x with board := x.board.edit topic f }

def unsubscribe (su : SubId) (text : Str) : ℤ × Exchange :=
  if (x.board.topic (cutFlags text)).has su then (0, x.editTopic (cutFlags text) (.leave su))
  else (-1, x)

def numSubs (su : SubId) : Option ℕ :=
  (x.inboxes.get su).map fun _ => x.board.topics.countP (TopicMap.has su)

def unsubscribeAll (su : SubId) : Option (ℕ × Exchange) := do
  let n ← x.numSubs su
  some (n, { x with board := x.board.sweep (.leave su) })

def freeSubscriber (su : SubId) : Option Exchange := do
  let (_, x) ← x.unsubscribeAll su
  some { x with inboxes := x.inboxes.free su }

def cleanSticky (pre : Str) : Exchange := { x with board := x.board.sweep (.forget pre) }

/-- The subscriptions to the topics `names`. -/
def subscriptions (names : List Str) : List SubscriberList :=
  names.flatMap fun name => (x.board.topic name).subscribers

/-- The visible subscriptions to the topic and its ancestors, but for the root. -/
def subsCount : Option Str → ℕ
  | none => 0
  | some text =>
    (x.subscriptions ((ancestors '.' (cutFlags text)).filter (· ≠ []))).countP fun sl => !sl.hidden

end Leaving

section Sending
variable (rank : UInt8 → ℕ)

/-- A message for one inbox; whether there was room for it. -/
def post (x : Exchange) (su : SubId) (msg : MsgId) (priority : UInt8) :
    Option (Bool × Exchange) := do
  let B ← x.inboxes.get su
  let room : Bool := B.waiting.length < B.size
  some (room, { x.setInbox su (B.put (rank priority, msg)) with
    callbacks := x.callbacks ++ if room then B.rings su else [] })

def posts (su : SubId) (priority : UInt8) : List MsgId → Exchange → Option Exchange
  | [], x => some x
  | msg :: msgs, x => do
    let (_, x) ← post rank x su msg priority
    posts su priority msgs x

/-- A copy for each subscription, unless it is an `on_empty` one and messages wait. The
visible ones that were stored without a loss count. -/
def deliver (msg : MsgId) : List SubscriberList → Exchange → Option (ℕ × Exchange)
  | [], x => some (0, x)
  | sl :: sls, x => do
    let B ← x.inboxes.get sl.su
    if sl.onEmpty && B.waiting ≠ [] then deliver msg sls x
    else do
      let (room, x) ← post rank x sl.su msg sl.priority.toUInt8
      let (n, x) ← deliver msg sls x
      some (if room && !sl.hidden then n + 1 else n, x)

def publish (x : Exchange) : Option MsgId → Option (ℕ × Exchange)
  | none => some (0, x)
  | some msg => do
    let m ← x.letters[msg]?
    let text ← m.topic
    let x := x.editTopic (cutFlags text) (.retain (m.retained msg))
    deliver rank msg (x.subscriptions (visited m (cutFlags text))) x

/-- The retained messages that a new subscription is sent. -/
def replay (x : Exchange) (topic : Str) (flags : PsSubFlags) : List MsgId :=
  if flags.noSticky then []
  else if flags.childSticky then
    x.board.topics.filterMap fun t => if IsAncestor '.' topic t.topic then t.sticky else none
  else (x.board.topic topic).sticky.toList

def subscribe (x : Exchange) (su : SubId) (text : Str) (pflags : Option PsSubFlags) :
    Option (ℤ × Exchange) :=
  let topic := cutFlags text
  let flags := subFlags text pflags
  if (x.board.topic topic).has su then some (-1, x)
  else do
    let _ ← x.inboxes.get su
    let x := x.editTopic topic
      (.join ⟨su, flags.hidden, flags.onEmpty, flags.priority.toInt8⟩)
    let x ← posts rank su flags.priority (x.replay topic flags) x
    some (0, x)

def newSubscriber (x : Exchange) (queueSize : ℕ) (subs : Option (List Str)) :
    Option (SubId × Exchange) := do
  let su := x.inboxes.next
  let x := { x with inboxes := x.inboxes.alloc (.new queueSize) }
  let (_, x) ← each (fun x text => subscribe rank x su text none) (subs.getD []) x
  some (su, x)

def call (x : Exchange) (msg : MsgId) (timeout : Int64) : Option (Option MsgId × Exchange) := do
  let x := { x with calls := x.calls + 1 }
  let rtopic := callTopic x.calls
  let x ← x.setRtopic msg (some rtopic)
  let (su, x) ← newSubscriber rank x 1 (some [rtopic])
  let (n, x) ← publish rank x (some msg)
  let (reply, x) ← if n = 0 then some (none, x) else x.get su timeout
  let x ← x.freeSubscriber su
  some (reply, x)

def waitOne (x : Exchange) (topic : Str) (timeout : Int64) : Option (Option MsgId × Exchange) := do
  let (su, x) ← newSubscriber rank x 1 (some [topic])
  let (msg, x) ← x.get su timeout
  let x ← x.freeSubscriber su
  some (msg, x)

/-- One call. `none` is a call on what does not exist, or a wait without end. -/
def step (x : Exchange) : Op → Option (Ret × Exchange)
  | .newMsg topic flags args => (x.newMsg topic flags args).map fun (m, x) => (.msg m, x)
  | .dupMsg msg => (x.dupMsg msg).map fun (m, x) => (.msg (some m), x)
  | .refMsg msg => if msg.all x.known then some (.msg msg, x) else none
  | .unrefMsg msg => if msg.all x.known then some (.unit, x) else none
  | .msgSetTopic msg topic => (x.setTopic msg topic).map fun x => (.unit, x)
  | .msgSetRtopic msg rtopic => (x.setRtopic msg rtopic).map fun x => (.unit, x)
  | .msgSetValue msg flags args => (x.setValue msg flags args).map fun x => (.unit, x)
  | .newSubscriber queueSize subs =>
    (newSubscriber rank x queueSize subs).map fun (su, x) => (.subscriber su, x)
  | .freeSubscriber su => (x.freeSubscriber su).map fun x => (.unit, x)
  | .setNewMsgCb su cb => (x.setNewMsgCb su cb).map fun x => (.unit, x)
  | .setNonEmptyCb su cb => (x.setNonEmptyCb su cb).map fun x => (.unit, x)
  | .get su timeout => (x.get su timeout).map fun (m, x) => (.msg m, x)
  | .flush su => (x.flush su).map fun (n, x) => (.int n, x)
  | .waiting su => (x.waiting su).map fun n => (.int n, x)
  | .overflow su => (x.overflow su).map fun (n, x) => (.int n, x)
  | .numSubs su => (x.numSubs su).map fun n => (.int n, x)
  | .subscribe su topic => (subscribe rank x su topic none).map fun (r, x) => (.int r, x)
  | .subscribeFlags su topic flags =>
    (subscribe rank x su topic flags).map fun (r, x) => (.int r, x)
  | .subscribeMany su subs =>
    (each (fun x text => subscribe rank x su text none) (subs.getD []) x).map
      fun (n, x) => (.int n, x)
  | .unsubscribe su topic => some ((x.unsubscribe su topic).map .int id)
  | .unsubscribeMany su subs =>
    (each (fun x text => some (x.unsubscribe su text)) (subs.getD []) x).map
      fun (n, x) => (.int n, x)
  | .unsubscribeAll su => (x.unsubscribeAll su).map fun (n, x) => (.int n, x)
  | .publish msg => (publish rank x msg).map fun (n, x) => (.int n, x)
  | .cleanSticky pre => some (.unit, x.cleanSticky pre)
  | .subsCount topic => some (.int (x.subsCount topic), x)
  | .call msg timeout => (call rank x msg timeout).map fun (m, x) => (.msg m, x)
  | .waitOne topic timeout => (waitOne rank x topic timeout).map fun (m, x) => (.msg m, x)

/-- The runs of the exchange. -/
abbrev Reaches (x : Exchange) (h : List Label) (x' : Exchange) : Prop :=
  Run (fun x e x' => step rank x e.1 = some (e.2, x')) x h x'

end Sending

end Exchange

end PubSub
