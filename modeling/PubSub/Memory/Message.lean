import PubSub.Lib.Heap
import PubSub.Message

/-! `ps_msg_t` with its pointers: every topic, text and buffer is a block of the heap,
and the functions of `pubsub.c` allocate, read and release the blocks. `none` is the use
or the release of a block that is not live, a read past its end, or a member of the
union that is not the one stored. Allocation does not fail. -/

namespace PubSub

open Lib

abbrev BlockId := ℕ

/-- The blocks by their bytes, and the calls of `free` and of the clients' destructors.
A destructor releases the buffer it is called with. -/
abbrev Blocks := Heap (List UInt8) PsDtor

/-- The union of `ps_msg_t`, by the member stored last, and the variable arguments that
fill it. `zero` is what `calloc` leaves, and no arguments. -/
inductive PsUnion where
  | zero
  | int (v : Int64)
  | dbl (bits : UInt64)
  | ptr (p : Option BlockId)
  | str (p : Option BlockId)
  | bool (b : Int32)
  | buf (ptr : Option BlockId) (sz : UInt64) (dtor : Option PsDtor)
  | err (id : Int32) (desc : Option BlockId)
  deriving DecidableEq

/-- `ps_msg_t`. -/
structure RawMsg where
  ref : UInt32
  topic : Option BlockId
  rtopic : Option BlockId
  flags : UInt32
  priority : Int8
  value : PsUnion
  deriving DecidableEq

/-! ### Blocks -/

/-- The text up to its NUL. Without one the read leaves the block. -/
def cstr (l : List UInt8) : Option (List UInt8) :=
  if 0 ∈ l then some (l.takeWhile (· ≠ 0)) else none

def textAt (H : Blocks) (b : BlockId) : Option (List UInt8) := (H.blocks.get b).bind cstr

/-- The first `sz` bytes, as `memcpy` reads them. -/
def bytesAt (H : Blocks) (b : BlockId) (sz : UInt64) : Option (List UInt8) := do
  let l ← H.blocks.get b
  if sz.toNat ≤ l.length then some (l.take sz.toNat) else none

def strdup (H : Blocks) (p : Option BlockId) : Option (BlockId × Blocks) := do
  let text ← textAt H (← p)
  some (H.alloc (text ++ [0]))

def free (H : Blocks) : Option BlockId → Option Blocks
  | none => some H
  | some b => H.release .free b

/-! ### The union -/

namespace PsUnion

/-- The type bits that the member is stored under. -/
def typ : PsUnion → UInt32
  | .zero => 0
  | .int _ => PS_INT_TYP
  | .dbl _ => PS_DBL_TYP
  | .ptr _ => PS_PTR_TYP
  | .str _ => PS_STR_TYP
  | .bool _ => PS_BOOL_TYP
  | .buf _ _ _ => PS_BUF_TYP
  | .err _ _ => PS_ERR_TYP

def strVal : PsUnion → Option (Option BlockId)
  | .zero => some none
  | .str p => some p
  | _ => none

def bufVal : PsUnion → Option (Option BlockId × UInt64 × Option PsDtor)
  | .zero => some (none, 0, none)
  | .buf p sz dtor => some (p, sz, dtor)
  | _ => none

def errVal : PsUnion → Option (Int32 × Option BlockId)
  | .zero => some (0, none)
  | .err id desc => some (id, desc)
  | _ => none

/-- What is stored for the arguments: a text is copied, a buffer is not. -/
def store (H : Blocks) : PsUnion → Option (PsUnion × Blocks)
  | .str p => (strdup H p).map fun (b, H) => (.str (some b), H)
  | .err id desc => (strdup H desc).map fun (b, H) => (.err id (some b), H)
  | v => some (v, H)

end PsUnion

/-! ### Messages -/

def hasType (flags typ : UInt32) : Bool := flags &&& PS_MSK_TYP = typ

/-- The types for which `ps_msg_set_vvalue` reads an argument. -/
def argumentTypes : List UInt32 :=
  [PS_INT_TYP, PS_DBL_TYP, PS_PTR_TYP, PS_STR_TYP, PS_BOOL_TYP, PS_BUF_TYP, PS_ERR_TYP]

def takesArgument (flags : UInt32) : Bool := argumentTypes.any (hasType flags)

namespace RawMsg

def isType (msg : RawMsg) (typ : UInt32) : Bool := hasType msg.flags typ

/-- The releases of `ps_msg_free_value`. -/
def releaseValue (H : Blocks) (msg : RawMsg) : Option Blocks :=
  if msg.isType PS_STR_TYP then do
    free H (← msg.value.strVal)
  else if msg.isType PS_BUF_TYP then do
    match ← msg.value.bufVal with
    | (some ptr, _, some dtor) => H.release dtor ptr
    | _ => some H
  else if msg.isType PS_ERR_TYP then do
    let (_, desc) ← msg.value.errVal
    free H desc
  else some H

/-- `ps_msg_free_value`. -/
def psMsgFreeValue (H : Blocks) (msg : RawMsg) : Option (RawMsg × Blocks) := do
  let H ← releaseValue H msg
  some ({ msg with flags := (msg.flags &&& ~~~PS_MSK_VALUE) ||| PS_NIL_TYP }, H)

/-- `ps_msg_set_vvalue`. -/
def psMsgSetVvalue (H : Blocks) (msg : RawMsg) (flags : UInt32) (args : PsUnion) :
    Option (RawMsg × Blocks) := do
  let (msg, H) ← psMsgFreeValue H msg
  let msg := { msg with flags := (msg.flags &&& ~~~PS_MSK_VALUE) ||| (flags &&& PS_MSK_VALUE) }
  if takesArgument msg.flags then
    if msg.isType args.typ then do
      let (value, H) ← args.store H
      some ({ msg with value := value }, H)
    else none
  else some (msg, H)

/-- `ps_new_msg` from the `calloc` on. -/
def psNewMsg (H : Blocks) (topic : BlockId) (flags : UInt32) (args : PsUnion) :
    Option (RawMsg × Blocks) := do
  let (topic, H) ← strdup H (some topic)
  let msg : RawMsg := { ref := 1, topic := some topic, rtopic := none, flags := flags,
                        priority := 0, value := .zero }
  psMsgSetVvalue H msg flags args

/-- A copied pointer to a text, replaced by a pointer to a copy of the text. -/
def dupText (H : Blocks) : Option BlockId → Option (Option BlockId × Blocks)
  | none => some (none, H)
  | some b => (strdup H (some b)).map fun (b, H) => (some b, H)

/-- The copied union of `msg`, with its pointers replaced by the type of `msg`. -/
def dupValue (H : Blocks) (msg : RawMsg) : Option (PsUnion × Blocks) :=
  if msg.isType PS_STR_TYP then do
    let (p, H) ← dupText H (← msg.value.strVal)
    some (.str p, H)
  else if msg.isType PS_BUF_TYP then do
    let (ptr, sz, _) ← msg.value.bufVal
    let bytes ← bytesAt H (← ptr) sz
    let (b, H) := H.alloc bytes
    some (.buf (some b) sz (some .free), H)
  else if msg.isType PS_ERR_TYP then do
    let (id, desc) ← msg.value.errVal
    let (p, H) ← dupText H desc
    some (.err id p, H)
  else some (msg.value, H)

/-- `ps_dup_msg` of the message at `msg_orig`. -/
def psDupMsg (H : Blocks) (msgOrig : RawMsg) : Option (RawMsg × Blocks) := do
  let (topic, H) ← dupText H msgOrig.topic
  let (rtopic, H) ← dupText H msgOrig.rtopic
  let (value, H) ← dupValue H msgOrig
  some ({ msgOrig with ref := 1, topic := topic, rtopic := rtopic, value := value }, H)

/-- The pointer is freed and replaced by a copy of the new text, if there is one. -/
def setText (H : Blocks) (old new : Option BlockId) : Option (Option BlockId × Blocks) := do
  let H ← free H old
  dupText H new

/-- `ps_msg_set_topic`. -/
def psMsgSetTopic (H : Blocks) (msg : RawMsg) (topic : Option BlockId) :
    Option (RawMsg × Blocks) :=
  (setText H msg.topic topic).map fun (topic, H) => ({ msg with topic := topic }, H)

/-- `ps_msg_set_rtopic`. -/
def psMsgSetRtopic (H : Blocks) (msg : RawMsg) (rtopic : Option BlockId) :
    Option (RawMsg × Blocks) :=
  (setText H msg.rtopic rtopic).map fun (rtopic, H) => ({ msg with rtopic := rtopic }, H)

/-- What `ps_unref_msg` releases with the last reference, before the message itself. -/
def release (H : Blocks) (msg : RawMsg) : Option Blocks := do
  let H ← free H msg.topic
  let H ← free H msg.rtopic
  let (_, H) ← psMsgFreeValue H msg
  some H

end RawMsg

end PubSub
