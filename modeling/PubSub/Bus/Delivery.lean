import PubSub.Bus.State

/-! The calls on one subscriber's queue: delivery with its callbacks, and the
reading side. -/

namespace PubSub

open Lib

variable {Q : Type → Type} [PsQueue Q] [LawfulPsQueue Q]

/-- The callbacks after a push that was stored. -/
def deliveryCallbacks (su : SubId) (S : PsSubscriber Q) (waiting : ℕ) : List CallbackCall :=
  (match S.nonEmptyCb with
    | some cb => if waiting = 1 then [⟨su, .nonEmpty, cb⟩] else []
    | none => []) ++
  (match S.newMsgCb with
    | some cb => [⟨su, .newMsg, cb⟩]
    | none => [])

/-- `push_subscriber_queue`. The message that the queue evicts is released inside
`ps_queue_push`. -/
def pushSubscriberQueue (s : Bus Q) (su : SubId) (via : Str) (msg : MsgId) (priority : UInt8) :
    Option (ℤ × Bus Q) := do
  let ms ← psRefMsg s.messages (some msg)
  let S ← s.subscribers.get su
  let (ret, evicted, q) ← S.q.push msg priority
  let ms ← psUnrefMsg ms evicted
  let push : Push := ⟨su, via, msg, priority, ret⟩
  let s := { s with pushes := s.pushes ++ [push] }
  match ret with
  | .efull => do
    let ms ← psUnrefMsg ms (some msg)
    let S := { S with q := q, overflow := S.overflow + 1 }
    some (-1, { s with messages := ms, subscribers := s.subscribers.modify su fun _ => S })
  | .eoverflow =>
    let S := { S with q := q, overflow := S.overflow + 1 }
    some (-1, { s with messages := ms, subscribers := s.subscribers.modify su fun _ => S })
  | .ok =>
    let callbacks := s.callbacks ++ deliveryCallbacks su S q.waiting
    let S := { S with q := q }
    some (0, { s with
      messages := ms, subscribers := s.subscribers.modify su fun _ => S, callbacks := callbacks })

/-- One round of the loop in `push_child_sticky`. -/
def pushIfChildSticky (su : SubId) (via : Str) (pre : Str) (priority : UInt8) (s : Bus Q)
    (tm : TopicId) : Option (Bus Q) := do
  let t ← s.topicMap.get tm
  if inSubtree pre t.topic then
    match t.sticky with
    | none => some s
    | some msg => do
      let (_, s) ← pushSubscriberQueue s su via msg priority
      some s
  else some s

/-- `push_child_sticky`. -/
def pushChildSticky (s : Bus Q) (su : SubId) (pre : Str) (priority : UInt8) : Option (Bus Q) :=
  s.topicMap.ids.foldlM (pushIfChildSticky su pre pre priority) s

/-- `ps_get`. -/
def psGet (s : Bus Q) (su : SubId) (timeout : Int64) : Option (Option MsgId × Bus Q) := do
  let S ← s.subscribers.get su
  let (msg, q) ← S.q.pull timeout
  some (msg, s.modifySubscriber su fun _ => { S with q := q })

/-- The loop of `ps_flush`, with a bound on its rounds. -/
def flushLoop (su : SubId) : ℕ → ℕ → Bus Q → Option (ℕ × Bus Q)
  | 0, _, _ => none
  | fuel + 1, flushed, s => do
    let (msg, s) ← psGet s su 0
    match msg with
    | none => some (flushed, s)
    | some msg => do
      let ms ← psUnrefMsg s.messages (some msg)
      flushLoop su fuel (flushed + 1) { s with messages := ms }

/-- `ps_flush`. -/
def psFlush (s : Bus Q) (su : SubId) : Option (ℕ × Bus Q) := do
  let S ← s.subscribers.get su
  flushLoop su (S.q.waiting + 1) 0 s

/-- `ps_waiting`. -/
def psWaiting (s : Bus Q) (su : SubId) : Option ℕ := do
  let S ← s.subscribers.get su
  some S.q.waiting

/-- `ps_overflow`, whose result is converted to `int`. -/
def psOverflow (s : Bus Q) (su : SubId) : Option (ℤ × Bus Q) := do
  let S ← s.subscribers.get su
  let n := S.overflow
  some (n.toInt32.toInt, s.modifySubscriber su fun _ => { S with overflow := S.overflow - n })

/-- `ps_num_subs`. -/
def psNumSubs (s : Bus Q) (su : SubId) : Option ℕ := do
  let S ← s.subscribers.get su
  some S.subs.length

/-- The call of a callback that is set while messages wait. -/
def installCallbacks (su : SubId) (kind : CallbackKind) (cb : Option Callback) (waiting : ℕ) :
    List CallbackCall :=
  match cb with
  | some cb => if 0 < waiting then [⟨su, kind, cb⟩] else []
  | none => []

/-- `ps_set_new_msg_cb`. -/
def psSetNewMsgCb (s : Bus Q) (su : SubId) (cb : Option Callback) : Option (Bus Q) := do
  let S ← s.subscribers.get su
  let s := s.modifySubscriber su fun _ => { S with newMsgCb := cb }
  some { s with callbacks := s.callbacks ++ installCallbacks su .newMsg cb S.q.waiting }

/-- `ps_set_non_empty_cb`. -/
def psSetNonEmptyCb (s : Bus Q) (su : SubId) (cb : Option Callback) : Option (Bus Q) := do
  let S ← s.subscribers.get su
  let s := s.modifySubscriber su fun _ => { S with nonEmptyCb := cb }
  some { s with callbacks := s.callbacks ++ installCallbacks su .nonEmpty cb S.q.waiting }

end PubSub
