import PubSub.Bus.Api
import PubSub.Memory.Runs

/-! The messages in their blocks and the messages of `PubSub.Bus.State`, whose texts and
buffers are values: a call on the blocks is the call on the values that they say. -/

namespace PubSub

open Lib

/-! ### Values -/

theorem PsUnion.typ_load {addr : BlockId → UInt64} {H : Blocks} {u : PsUnion} {v : PsValue}
    (h : u.load addr H = some v) : v.typ = u.typ := by
  cases u with
  | zero => cases h
  | str p =>
    obtain ⟨b, -, h⟩ := Option.bind_eq_some_iff.mp h
    obtain ⟨l, -, rfl⟩ := Option.map_eq_some_iff.mp h
    rfl
  | buf p sz dtor =>
    obtain ⟨b, -, h⟩ := Option.bind_eq_some_iff.mp h
    obtain ⟨l, -, rfl⟩ := Option.map_eq_some_iff.mp h
    rfl
  | err id p =>
    obtain ⟨b, -, h⟩ := Option.bind_eq_some_iff.mp h
    obtain ⟨l, -, rfl⟩ := Option.map_eq_some_iff.mp h
    rfl
  | _ =>
    cases h
    rfl

/-- The value functions agree on what the arguments stand for. -/
theorem psMsgSetVvalue_argument {addr : BlockId → UInt64} {H : Blocks} {flags : UInt32}
    {args : PsUnion} {v : PsValue} (h : argumentValue addr H flags args = some v) (q : PsMsg) :
    psMsgSetVvalue q flags v = some { q with flags := valueFlags q.flags flags, value := v } := by
  have hset : psMsgSetVvalue q flags v =
      if takesArgument flags then
        if hasType flags v.typ then some { q with flags := valueFlags q.flags flags, value := v }
        else none
      else some { q with flags := valueFlags q.flags flags, value := .nil } := by
    rw [← takesArgument_valueFlags q.flags, ← hasType_valueFlags q.flags]
    rfl
  unfold argumentValue at h
  rw [hset]
  split
  case isTrue htakes =>
    rw [if_pos htakes] at h
    split at h
    case isTrue htyp => rw [PsUnion.typ_load h, if_pos htyp]
    case isFalse => cases h
  case isFalse htakes =>
    rw [if_neg htakes] at h
    cases h
    rfl

/-- The value functions agree on what a duplicate holds. -/
theorem dupValue_eq {addr : BlockId → UInt64} {H : Blocks} {m : RawMsg} {q : PsMsg}
    (h : m.load addr H = some q) : dupValue q = ownValue q.value := by
  obtain ⟨-, -, -, hflags, -, hvalue⟩ := RawMsg.load_eq_some.mp h
  unfold dupValue
  cases hq : q.value with
  | buf bytes dtor =>
    have htyp : q.isType PS_BUF_TYP := by
      rcases RawMsg.loadValue_cases hvalue with ⟨-, htyp, hload, -⟩ | ⟨-, hnil, -, -⟩
      · have hbuf : q.value.typ = m.value.typ := PsUnion.typ_load hload
        rw [hq] at hbuf
        unfold PsMsg.isType
        rw [hflags, show PS_BUF_TYP = m.value.typ from hbuf]
        exact htyp
      · rw [hq] at hnil
        cases hnil
    exact if_pos htyp
  | _ => rfl

namespace Memory

variable {addr : BlockId → UInt64} {M : Memory} {mine : BlockId → Bool} {i : MsgId}
  {out : List (BlockId × PsDtor)} {given : List (BlockId × Option PsDtor)} {q : PsMsg}

/-- What all messages say. -/
def messages (addr : BlockId → UInt64) (M : Memory) : Messages where
  cells :=
    { next := M.msgs.next
      get := M.content addr
      fresh := fun i hi => by rw [content, M.msgs.fresh i hi, Option.bind_none] }
  statLiveMsg := M.statLiveMsg
  refWrap := M.refWrap

/-- The call with the values of its arguments. Allocations are the clients' own. -/
def Op.call (addr : BlockId → UInt64) (M : Memory) : Op → Option PubSub.Op
  | .alloc _ => none
  | .newMsg topic flags args => do
    let topic ← textOf M.heap topic
    let v ← argumentValue addr M.heap flags args
    some (.newMsg topic flags v)
  | .dupMsg msg => some (.dupMsg msg)
  | .refMsg msg => some (.refMsg msg)
  | .unrefMsg msg => some (.unrefMsg msg)
  | .msgSetTopic msg topic => (textOf M.heap topic).map (.msgSetTopic msg)
  | .msgSetRtopic msg rtopic => (textOf M.heap rtopic).map (.msgSetRtopic msg)
  | .msgSetValue msg flags args =>
    (argumentValue addr M.heap flags args).map (.msgSetValue msg flags)

def Ret.call : Ret → PubSub.Ret
  | .msg m => .msg m
  | _ => .unit

/-! ### Calls -/

theorem messages_eq {ms : Messages} (hnext : M.msgs.next = ms.cells.next)
    (hget : ∀ j, M.content addr j = ms.cells.get j) (hstat : M.statLiveMsg = ms.statLiveMsg)
    (hwrap : M.refWrap = ms.refWrap) : M.messages addr = ms := by
  obtain ⟨cells, stat, wrap⟩ := ms
  have hcells : (M.messages addr).cells = cells := by
    apply Cells.ext_get
    · exact hnext
    · exact hget
  show Messages.mk (M.messages addr).cells M.statLiveMsg M.refWrap = _
  rw [hcells, hstat, hwrap]

/-- A message with a new content. -/
theorem messages_set {m' : RawMsg} {H' : Blocks} {wrap : Bool} (hq : M.content addr i = some q)
    {q' : PsMsg} (hcontent : ∀ j, content addr
      { M with heap := H', msgs := M.msgs.set i (some m'), refWrap := wrap } j =
        if j = i then some q' else M.content addr j) (f : PsMsg → PsMsg) (hf : f q = q') :
    messages addr { M with heap := H', msgs := M.msgs.set i (some m'), refWrap := wrap } =
      { M.messages addr with cells := (M.messages addr).cells.modify i f, refWrap := wrap } := by
  apply messages_eq
  case hnext => rfl
  case hstat => rfl
  case hwrap => rfl
  intro j
  rw [hcontent j, Cells.get_modify]
  split
  case isTrue hj =>
    rw [hj]
    show _ = (M.content addr i).map f
    rw [hq, Option.map_some, hf]
  case isFalse => rfl

/-- A new message. -/
theorem messages_alloc {m' : RawMsg} {H' : Blocks} {q' : PsMsg} (hcontent : ∀ j, content addr
      { M with heap := H', msgs := M.msgs.alloc m', statLiveMsg := M.statLiveMsg + 1 } j =
        if j = M.msgs.next then some q' else M.content addr j) :
    allocMsg (M.messages addr) q' = (M.msgs.next, messages addr
      { M with heap := H', msgs := M.msgs.alloc m', statLiveMsg := M.statLiveMsg + 1 }) := by
  have hms : messages addr { M with heap := H', msgs := M.msgs.alloc m', statLiveMsg := M.statLiveMsg + 1 } =
      (allocMsg (M.messages addr) q').2 := by
    apply messages_eq
    case hnext => rfl
    case hstat => rfl
    case hwrap => rfl
    exact hcontent
  rw [hms]
  rfl

/-- One message less. -/
theorem messages_free {H' : Blocks} (hcontent : ∀ j, content addr
      { M with heap := H', msgs := M.msgs.free i, statLiveMsg := M.statLiveMsg - 1 } j =
        if j = i then none else M.content addr j) :
    messages addr { M with heap := H', msgs := M.msgs.free i, statLiveMsg := M.statLiveMsg - 1 } =
      { M.messages addr with
        cells := (M.messages addr).cells.free i
        statLiveMsg := M.statLiveMsg - 1 } := by
  apply messages_eq
  case hnext => rfl
  case hstat => rfl
  case hwrap => rfl
  exact hcontent

variable {Q : Type → Type} [PsQueue Q] [LawfulPsQueue Q] {s : Bus Q} {c : Client} {op : Op} {r : Ret}
  {M' : Memory}

/-- A reference on the blocks is a reference on the values. -/
theorem step_call_ref {msg : MsgId} (hok : c.Ok addr) (hop : c.allowed (.refMsg (some msg)))
    (hs : s.messages = c.mem.messages addr)
    (h : c.mem.step (.refMsg (some msg)) = some (r, M')) :
    PubSub.step s (.refMsg (some msg)) =
      some (r.call, { s with messages := M'.messages addr }) := by
  obtain ⟨m, q, hm, hq, hcontent, -⟩ := hok.held (of_decide_eq_true hop)
  have hmref : q.ref = m.ref := (RawMsg.load_eq_some.mp hq).1
  have he := ref_effect hok.ledger hok.loads hm hq (m.ref + 1)
    (c.mem.refWrap || decide (m.ref + 1 = 0))
  rw [Memory.step, psRefMsg, hm] at h
  cases h
  rw [PubSub.step, hs, PubSub.psRefMsg, show (c.mem.messages addr).cells.get msg = some q from
    hcontent, Option.bind_eq_bind, Option.bind_some,
    messages_set hcontent he.content (fun m => { m with ref := m.ref + 1 }) (by rw [hmref]),
    ← hmref]
  rfl

/-- A dropped reference on the blocks is one on the values. -/
theorem step_call_unref {msg : MsgId} (hok : c.Ok addr) (hop : c.allowed (.unrefMsg (some msg)))
    (hs : s.messages = c.mem.messages addr)
    (h : c.mem.step (.unrefMsg (some msg)) = some (r, M')) :
    PubSub.step s (.unrefMsg (some msg)) =
      some (r.call, { s with messages := M'.messages addr }) := by
  obtain ⟨m, q, hm, hq, hcontent, -⟩ := hok.held (of_decide_eq_true hop)
  have hmref : q.ref = m.ref := (RawMsg.load_eq_some.mp hq).1
  have hget : (c.mem.messages addr).cells.get msg = some q := hcontent
  rw [PubSub.step, hs, PubSub.psUnrefMsg, hget, Option.bind_eq_bind, Option.bind_some, hmref]
  rw [Memory.step, psUnrefMsg, hm, Option.bind_eq_bind, Option.bind_some] at h
  by_cases hlast : m.ref - 1 = 0
  · obtain ⟨H', hrelease, he⟩ := release_effect hok.ledger hok.loads hm hq
    rw [if_pos hlast, hrelease] at h
    cases h
    rw [if_pos hlast, messages_free he.content]
    rfl
  · have he := ref_effect hok.ledger hok.loads hm hq (m.ref - 1) c.mem.refWrap
    rw [if_neg hlast] at h
    cases h
    rw [if_neg hlast,
      messages_set hcontent he.content (fun m => { m with ref := m.ref - 1 }) (by rw [hmref])]
    rfl

/-- A call on the blocks that is allowed is the call of the bus on the values. -/
theorem step_call (hok : c.Ok addr) (hop : c.allowed op) (hs : s.messages = c.mem.messages addr)
    (h : c.mem.step op = some (r, M')) :
    (op.call addr c.mem).elim (M'.messages addr = c.mem.messages addr) fun call =>
      PubSub.step s call = some (r.call, { s with messages := M'.messages addr }) := by
  cases op with
  | alloc bytes =>
    cases h
    exact messages_eq rfl (alloc_content hok.ledger bytes) rfl rfl
  | newMsg topic flags args =>
    have hboth : c.mem.textOk topic ∧ c.mem.argsOk flags args := by
      simpa [Client.allowed] using hop
    cases topic with
    | none =>
      cases h
      obtain ⟨⟨v, hv⟩, -⟩ := argsOk_spec addr hboth.2
      have hcall : (Op.newMsg none flags args).call addr c.mem = some (.newMsg none flags v) := by
        rw [Op.call, hv]
        rfl
      rw [hcall, Option.elim_some, PubSub.step, hs]
      rfl
    | some topic =>
      obtain ⟨t, v, m', H', ht, hv, hnew, he⟩ :=
        psNewMsg_effect hok.ledger hok.loads hboth.1 hboth.2
      have hcall : (Op.newMsg (some topic) flags args).call addr c.mem =
          some (.newMsg (some t) flags v) := by
        rw [Op.call, ht, hv]
        rfl
      rw [Memory.step, hnew] at h
      cases h
      rw [hcall, Option.elim_some, PubSub.step, hs, PubSub.psNewMsg, psMsgSetVvalue_argument hv]
      rw [Option.bind_eq_bind, Option.bind_some, messages_alloc he.content]
      rfl
  | dupMsg msg =>
    obtain ⟨m, q, hm, hq, hcontent, -⟩ := hok.held (of_decide_eq_true hop)
    obtain ⟨m', H', hdup, he⟩ := psDupMsg_effect hok.ledger hok.loads hm hq
    rw [Memory.step, hdup] at h
    cases h
    show PubSub.step s (.dupMsg msg) = _
    rw [PubSub.step, hs, PubSub.psDupMsg, show (c.mem.messages addr).cells.get msg = some q from
      hcontent, Option.bind_eq_bind, Option.bind_some, dupValue_eq hq, messages_alloc he.content]
    rfl
  | refMsg msg =>
    cases msg with
    | none =>
      cases h
      show PubSub.step s (.refMsg none) = _
      rw [PubSub.step, hs]
      rfl
    | some msg => exact step_call_ref hok hop hs h
  | unrefMsg msg =>
    cases msg with
    | none =>
      cases h
      show PubSub.step s (.unrefMsg none) = _
      rw [PubSub.step, hs]
      rfl
    | some msg => exact step_call_unref hok hop hs h
  | msgSetTopic msg topic =>
    have hboth : 0 < c.held msg ∧ c.mem.textOk topic := by simpa [Client.allowed] using hop
    obtain ⟨m, q, hm, hq, hcontent, -⟩ := hok.held hboth.1
    obtain ⟨t, m', H', ht, hset, he⟩ := psMsgSetTopic_effect hok.ledger hok.loads hm hq hboth.2
    rw [Memory.step, hset] at h
    cases h
    have hcall : (Op.msgSetTopic msg topic).call addr c.mem = some (.msgSetTopic msg t) := by
      rw [Op.call, ht, Option.map_some]
    rw [hcall, Option.elim_some, PubSub.step, hs, PubSub.psMsgSetTopic,
      show (c.mem.messages addr).cells.get msg = some q from hcontent, Option.bind_eq_bind,
      Option.bind_some, messages_set hcontent he.content (fun _ => { q with topic := t }) rfl]
    rfl
  | msgSetRtopic msg rtopic =>
    have hboth : 0 < c.held msg ∧ c.mem.textOk rtopic := by simpa [Client.allowed] using hop
    obtain ⟨m, q, hm, hq, hcontent, -⟩ := hok.held hboth.1
    obtain ⟨t, m', H', ht, hset, he⟩ := psMsgSetRtopic_effect hok.ledger hok.loads hm hq hboth.2
    rw [Memory.step, hset] at h
    cases h
    have hcall : (Op.msgSetRtopic msg rtopic).call addr c.mem = some (.msgSetRtopic msg t) := by
      rw [Op.call, ht, Option.map_some]
    rw [hcall, Option.elim_some, PubSub.step, hs, PubSub.psMsgSetRtopic,
      show (c.mem.messages addr).cells.get msg = some q from hcontent, Option.bind_eq_bind,
      Option.bind_some, messages_set hcontent he.content (fun _ => { q with rtopic := t }) rfl]
    rfl
  | msgSetValue msg flags args =>
    have hboth : 0 < c.held msg ∧ c.mem.argsOk flags args := by simpa [Client.allowed] using hop
    obtain ⟨m, q, hm, hq, hcontent, -⟩ := hok.held hboth.1
    obtain ⟨v, m', H', hv, hset, he⟩ := psMsgSetValue_effect hok.ledger hok.loads hm hq hboth.2
    rw [Memory.step, hset] at h
    cases h
    have hcall : (Op.msgSetValue msg flags args).call addr c.mem =
        some (.msgSetValue msg flags v) := by
      rw [Op.call, hv, Option.map_some]
    rw [hcall, Option.elim_some, PubSub.step, hs, PubSub.psMsgSetValue,
      show (c.mem.messages addr).cells.get msg = some q from hcontent, Option.bind_eq_bind,
      Option.bind_some, psMsgSetVvalue_argument hv, Option.bind_some,
      messages_set hcontent he.content
        (fun _ => { q with flags := valueFlags q.flags flags, value := v }) rfl]
    rfl

/-- A run of the clients on the blocks is a run of the bus on the values, call by call. -/
theorem Client.Reaches.bus {h : List Client.Label} (hr : Client.start.Reaches h c)
    (hw : c.mem.refWrap = false) :
    ∃ k : List PubSub.Label, (Bus.init : Bus Q).Reaches k
      { (Bus.init : Bus Q) with messages := c.mem.messages addr } := by
  induction hr with
  | nil => exact ⟨[], .nil⟩
  | @snoc h c₁ c₂ e hr hs ih =>
    obtain ⟨hop, hstep⟩ := Client.step_eq_some hs
    have hw₁ := Client.step_refWrap hstep hw
    obtain ⟨k, hk⟩ := ih hw₁
    have hok : c₁.Ok addr := Client.Reaches.ok hr hw₁
    have hcall := step_call hok hop
      (s := { (Bus.init : Bus Q) with messages := c₁.mem.messages addr }) rfl hstep
    cases hop' : e.1.call addr c₁.mem with
    | none =>
      rw [hop', Option.elim_none] at hcall
      rw [hcall]
      exact ⟨k, hk⟩
    | some call =>
      rw [hop', Option.elim_some] at hcall
      exact ⟨k ++ [(call, e.2.call)], hk.snoc hcall⟩

end Memory

end PubSub
