import PubSub.Topic

/-! The content of a message: `ps_msg_t` with its flags, its value and the three
functions that write them. Pointers to texts and buffers are the texts and the
buffers themselves. -/

namespace PubSub

def PS_FL_STICKY : UInt32 := 1
def PS_FL_NONRECURSIVE : UInt32 := 2
def PS_INT_TYP : UInt32 := 0x100
def PS_DBL_TYP : UInt32 := 0x200
def PS_PTR_TYP : UInt32 := 0x300
def PS_STR_TYP : UInt32 := 0x400
def PS_BUF_TYP : UInt32 := 0x500
def PS_BOOL_TYP : UInt32 := 0x600
def PS_ERR_TYP : UInt32 := 0x700
def PS_NIL_TYP : UInt32 := 0x800
def PS_MSK_TYP : UInt32 := 0xF00
def PS_MSK_ENC : UInt32 := 0xF0000
def PS_MSK_VALUE : UInt32 := PS_MSK_TYP ||| PS_MSK_ENC

/-- `ps_dtor_t`: `free`, or a function of the client. -/
inductive PsDtor where
  | free
  | client (id : ℕ)
  deriving DecidableEq

/-- The union of `ps_msg_t` and the variable arguments that fill it. A double is
its bits. -/
inductive PsValue where
  | nil
  | int (v : Int64)
  | dbl (bits : UInt64)
  | ptr (p : UInt64)
  | str (s : Str)
  | bool (b : Int32)
  | buf (bytes : List UInt8) (dtor : Option PsDtor)
  | err (id : Int32) (desc : Str)
  deriving DecidableEq

/-- `ps_msg_t`. -/
structure PsMsg where
  ref : UInt32
  topic : Option Str
  rtopic : Option Str
  flags : UInt32
  priority : Int8
  value : PsValue
  deriving DecidableEq

namespace PsMsg

def isType (msg : PsMsg) (typ : UInt32) : Bool := msg.flags &&& PS_MSK_TYP = typ

def sticky (msg : PsMsg) : Bool := msg.flags &&& PS_FL_STICKY ≠ 0

def nonrecursive (msg : PsMsg) : Bool := msg.flags &&& PS_FL_NONRECURSIVE ≠ 0

end PsMsg

/-- The type bits that a value is stored under. -/
def PsValue.typ : PsValue → UInt32
  | .nil => PS_NIL_TYP
  | .int _ => PS_INT_TYP
  | .dbl _ => PS_DBL_TYP
  | .ptr _ => PS_PTR_TYP
  | .str _ => PS_STR_TYP
  | .bool _ => PS_BOOL_TYP
  | .buf _ _ => PS_BUF_TYP
  | .err _ _ => PS_ERR_TYP

def psMsgFreeValue (msg : PsMsg) : PsMsg :=
  { msg with value := .nil, flags := (msg.flags &&& ~~~PS_MSK_VALUE) ||| PS_NIL_TYP }

/-- `flags & PS_MSK_VALUE` in place of the message's own type and encoding. -/
def setValueFlags (msg : PsMsg) (flags : UInt32) : PsMsg :=
  { msg with flags := (msg.flags &&& ~~~PS_MSK_VALUE) ||| (flags &&& PS_MSK_VALUE) }

/-- The types for which `ps_msg_set_vvalue` reads an argument. -/
def readsArgument (msg : PsMsg) : Bool :=
  [PS_INT_TYP, PS_DBL_TYP, PS_PTR_TYP, PS_STR_TYP, PS_BOOL_TYP, PS_BUF_TYP, PS_ERR_TYP].any
    msg.isType

/-- `none` is a `va_arg` of a type that was not passed. -/
def psMsgSetVvalue (msg : PsMsg) (flags : UInt32) (args : PsValue) : Option PsMsg :=
  let msg := setValueFlags (psMsgFreeValue msg) flags
  if readsArgument msg then
    if msg.isType args.typ then some { msg with value := args } else none
  else some msg

/-- The value of a duplicate: a buffer is copied into memory of its own. -/
def dupValue (msg : PsMsg) : PsValue :=
  match msg.value with
  | .buf bytes dtor => if msg.isType PS_BUF_TYP then .buf bytes (some .free) else .buf bytes dtor
  | v => v

/-- The bits that are not value bits outlive a change of the value bits. -/
theorem and_bit_of_valueBits {bit : UInt32} (hbit : PS_MSK_VALUE &&& bit = 0)
    (flags value : UInt32) :
    ((flags &&& ~~~PS_MSK_VALUE) ||| (value &&& PS_MSK_VALUE)) &&& bit =
      flags &&& (~~~PS_MSK_VALUE &&& bit) := by
  have hvalue : value &&& PS_MSK_VALUE &&& bit = 0 := by
    rw [UInt32.and_assoc, hbit, UInt32.and_zero]
  apply UInt32.toBitVec_inj.mp
  rw [UInt32.toBitVec_and, UInt32.toBitVec_or, BitVec.and_or_distrib_right,
    ← UInt32.toBitVec_and, ← UInt32.toBitVec_and, ← UInt32.toBitVec_or, hvalue,
    UInt32.or_zero, UInt32.and_assoc]

theorem setValueFlags_bit {bit : UInt32} (h : bit ∈ [PS_FL_STICKY, PS_FL_NONRECURSIVE])
    (msg : PsMsg) (flags : UInt32) :
    (setValueFlags msg flags).flags &&& bit = msg.flags &&& bit := by
  have hbits : ∀ b ∈ [PS_FL_STICKY, PS_FL_NONRECURSIVE],
      PS_MSK_VALUE &&& b = 0 ∧ ~~~PS_MSK_VALUE &&& b = b := by
    intro b hb
    rcases List.mem_pair.mp hb with rfl | rfl <;> decide
  obtain ⟨hmask, hcompl⟩ := hbits bit h
  rw [setValueFlags, and_bit_of_valueBits hmask, hcompl]

/-- Freeing the value sets the value bits to those of nil. -/
theorem psMsgFreeValue_eq (msg : PsMsg) :
    psMsgFreeValue msg = { setValueFlags msg PS_NIL_TYP with value := .nil } := by
  have : PS_NIL_TYP &&& PS_MSK_VALUE = PS_NIL_TYP := by decide
  rw [psMsgFreeValue, setValueFlags, this]

/-- Setting a value leaves everything but the value and its type bits. -/
theorem psMsgSetVvalue_eq_some {msg msg' : PsMsg} {flags : UInt32} {args : PsValue}
    (h : psMsgSetVvalue msg flags args = some msg') :
    msg'.ref = msg.ref ∧ msg'.topic = msg.topic ∧ msg'.rtopic = msg.rtopic ∧
    msg'.sticky = msg.sticky ∧ msg'.nonrecursive = msg.nonrecursive := by
  have hbit : ∀ bit ∈ [PS_FL_STICKY, PS_FL_NONRECURSIVE],
      (setValueFlags (psMsgFreeValue msg) flags).flags &&& bit = msg.flags &&& bit := by
    intro bit h
    rw [setValueFlags_bit h, psMsgFreeValue_eq]
    exact setValueFlags_bit h msg PS_NIL_TYP
  have hs := hbit PS_FL_STICKY (by decide)
  have hn := hbit PS_FL_NONRECURSIVE (by decide)
  have hmsg : msg'.flags = (setValueFlags (psMsgFreeValue msg) flags).flags ∧
      msg'.ref = msg.ref ∧ msg'.topic = msg.topic ∧ msg'.rtopic = msg.rtopic := by
    simp only [psMsgSetVvalue] at h
    split at h
    case isTrue =>
      split at h
      case isTrue =>
        cases h
        exact ⟨rfl, rfl, rfl, rfl⟩
      case isFalse => cases h
    case isFalse =>
      cases h
      exact ⟨rfl, rfl, rfl, rfl⟩
  obtain ⟨hflags, href, htopic, hrtopic⟩ := hmsg
  refine ⟨href, htopic, hrtopic, ?_, ?_⟩
  · rw [PsMsg.sticky, PsMsg.sticky, hflags, hs]
  · rw [PsMsg.nonrecursive, PsMsg.nonrecursive, hflags, hn]

end PubSub
