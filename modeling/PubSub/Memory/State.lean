import PubSub.Bus.State
import PubSub.Lib.Runs
import PubSub.Memory.Effects

/-! The messages of the program in the blocks of its heap, the calls of `pubsub.h` that
make, change and drop them, and clients that use the calls as they are meant to be used. -/

namespace PubSub

open Lib

/-- The part of the program's state that the messages make up, with the flag `refWrap` of
`Messages`. -/
structure Memory where
  heap : Blocks
  msgs : Cells RawMsg
  statLiveMsg : UInt32
  refWrap : Bool

namespace Memory

def start : Memory := { heap := .empty, msgs := .empty, statLiveMsg := 0, refWrap := false }

/-- A call on a message that changes it. -/
def onMsg (M : Memory) (msg : MsgId) (f : Blocks → RawMsg → Option (RawMsg × Blocks)) :
    Option Memory := do
  let m ← M.msgs.get msg
  let (m', H) ← f M.heap m
  some { M with heap := H, msgs := M.msgs.set msg (some m') }

/-- `ps_new_msg`. -/
def psNewMsg (M : Memory) (topic : Option BlockId) (flags : UInt32) (args : PsUnion) :
    Option (Option MsgId × Memory) :=
  match topic with
  | none => some (none, M)
  | some topic => do
    let (m, H) ← RawMsg.psNewMsg M.heap topic flags args
    some (some M.msgs.next,
      { M with heap := H, msgs := M.msgs.alloc m, statLiveMsg := M.statLiveMsg + 1 })

/-- `ps_dup_msg`. -/
def psDupMsg (M : Memory) (msgOrig : MsgId) : Option (MsgId × Memory) := do
  let orig ← M.msgs.get msgOrig
  let (m, H) ← RawMsg.psDupMsg M.heap orig
  some (M.msgs.next,
    { M with heap := H, msgs := M.msgs.alloc m, statLiveMsg := M.statLiveMsg + 1 })

/-- `ps_msg_set_topic`. -/
def psMsgSetTopic (M : Memory) (msg : MsgId) (topic : Option BlockId) : Option Memory :=
  M.onMsg msg fun H m => RawMsg.psMsgSetTopic H m topic

/-- `ps_msg_set_rtopic`. -/
def psMsgSetRtopic (M : Memory) (msg : MsgId) (rtopic : Option BlockId) : Option Memory :=
  M.onMsg msg fun H m => RawMsg.psMsgSetRtopic H m rtopic

/-- `ps_msg_set_value`. -/
def psMsgSetValue (M : Memory) (msg : MsgId) (flags : UInt32) (args : PsUnion) : Option Memory :=
  M.onMsg msg fun H m => RawMsg.psMsgSetVvalue H m flags args

/-- `ps_ref_msg`. -/
def psRefMsg (M : Memory) : Option MsgId → Option Memory
  | none => some M
  | some msg => do
    let m ← M.msgs.get msg
    some { M with
      msgs := M.msgs.set msg (some { m with ref := m.ref + 1 })
      refWrap := M.refWrap || m.ref + 1 = 0 }

/-- `ps_unref_msg`. -/
def psUnrefMsg (M : Memory) : Option MsgId → Option Memory
  | none => some M
  | some msg => do
    let m ← M.msgs.get msg
    if m.ref - 1 = 0 then do
      let H ← RawMsg.release M.heap m
      some { M with heap := H, msgs := M.msgs.free msg, statLiveMsg := M.statLiveMsg - 1 }
    else
      some { M with msgs := M.msgs.set msg (some { m with ref := m.ref - 1 }) }

/-- A call, with its arguments, and the allocation of a block by a client. -/
inductive Op where
  | alloc (bytes : List UInt8)
  | newMsg (topic : Option BlockId) (flags : UInt32) (args : PsUnion)
  | dupMsg (msg : MsgId)
  | refMsg (msg : Option MsgId)
  | unrefMsg (msg : Option MsgId)
  | msgSetTopic (msg : MsgId) (topic : Option BlockId)
  | msgSetRtopic (msg : MsgId) (rtopic : Option BlockId)
  | msgSetValue (msg : MsgId) (flags : UInt32) (args : PsUnion)
  deriving DecidableEq

/-- The result of a call. -/
inductive Ret where
  | unit
  | block (b : BlockId)
  | msg (m : Option MsgId)
  deriving DecidableEq

def step (M : Memory) : Op → Option (Ret × Memory)
  | .alloc bytes => some (.block M.heap.blocks.next, { M with heap := (M.heap.alloc bytes).2 })
  | .newMsg topic flags args => (M.psNewMsg topic flags args).map fun (m, M) => (.msg m, M)
  | .dupMsg msg => (M.psDupMsg msg).map fun (m, M) => (.msg (some m), M)
  | .refMsg msg => (M.psRefMsg msg).map fun M => (.msg msg, M)
  | .unrefMsg msg => (M.psUnrefMsg msg).map fun M => (.unit, M)
  | .msgSetTopic msg topic => (M.psMsgSetTopic msg topic).map fun M => (.unit, M)
  | .msgSetRtopic msg rtopic => (M.psMsgSetRtopic msg rtopic).map fun M => (.unit, M)
  | .msgSetValue msg flags args => (M.psMsgSetValue msg flags args).map fun M => (.unit, M)

/-- How many fields of messages point to the block, other than as a pointer value. -/
def owners (M : Memory) (b : BlockId) : ℕ := M.msgs.sum fun m => m.blocks.countP fun x => x.1 = b

/-! ### Clients -/

/-- A text argument: it can be read, and no message owns it. -/
def textOk (M : Memory) (p : Option BlockId) : Bool :=
  p.all fun b => (textAt M.heap b).isSome && M.owners b = 0

/-- The arguments of the value functions: of the type that the flags say, not NULL, and
owned by no message. -/
def argsOk (M : Memory) (flags : UInt32) (args : PsUnion) : Bool :=
  !takesArgument flags || hasType flags args.typ &&
    match args with
    | .str p => p.isSome && M.textOk p
    | .err _ p => p.isSome && M.textOk p
    | .buf p sz _ => p.any fun b => (bytesAt M.heap b sz).isSome && M.owners b = 0
    | _ => true

/-- The messages and what the clients have: the references they hold, and the blocks that
are theirs to release. -/
structure Client where
  mem : Memory
  held : MsgId → ℕ
  mine : BlockId → Bool

namespace Client

def start : Client := ⟨.start, fun _ => 0, fun _ => false⟩

/-- A client calls with references that it holds and with arguments of its own. -/
def allowed (c : Client) : Op → Bool
  | .alloc _ => true
  | .newMsg topic flags args => c.mem.textOk topic && c.mem.argsOk flags args
  | .dupMsg msg => 0 < c.held msg
  | .refMsg msg => msg.all fun msg => 0 < c.held msg
  | .unrefMsg msg => msg.all fun msg => 0 < c.held msg
  | .msgSetTopic msg topic => 0 < c.held msg && c.mem.textOk topic
  | .msgSetRtopic msg rtopic => 0 < c.held msg && c.mem.textOk rtopic
  | .msgSetValue msg flags args => 0 < c.held msg && c.mem.argsOk flags args

end Client

/-- The reference that the call gives up. -/
def Op.gives : Op → Option MsgId
  | .unrefMsg msg => msg
  | _ => none

/-- The reference that the result is. -/
def Ret.gets : Ret → Option MsgId
  | .msg m => m
  | _ => none

/-- The buffer that the call hands over. -/
def Op.given : Op → List (BlockId × Option PsDtor)
  | .newMsg (some _) flags args => givenBlocks flags args
  | .msgSetValue _ flags args => givenBlocks flags args
  | _ => []

/-- The block that the client has allocated. -/
def Ret.mine : Ret → Option BlockId
  | .block b => some b
  | _ => none

namespace Client

/-- The client after a call. A buffer with a destructor is the message's from then on. -/
def after (c : Client) (op : Op) (r : Ret) (M : Memory) : Client where
  mem := M
  held i := c.held i - (if op.gives = some i then 1 else 0) + if r.gets = some i then 1 else 0
  mine b := (c.mine b || r.mine = some b) && duties op.given b = 0

def step (c : Client) (op : Op) : Option (Ret × Client) :=
  if c.allowed op then (c.mem.step op).map fun (r, M) => (r, c.after op r M) else none

abbrev Label := Op × Ret

abbrev Reaches (c : Client) (h : List Label) (c' : Client) : Prop :=
  Run (fun c e c' => c.step e.1 = some (e.2, c')) c h c'

end Client

end Memory

end PubSub
