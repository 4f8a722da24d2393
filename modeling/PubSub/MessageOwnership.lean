import PubSub.Memory.Runs

/-! Who owns the texts and buffers of messages, and when they are released. -/

namespace PubSub.Memory.Client

open Lib

variable {addr : BlockId → UInt64} {c : Client} {h : List Label} {i : MsgId} {b : BlockId}

/-- A block is a client's, and then not released, or it is due in one field of one message
or was released once. -/
theorem Ok.accounted (hok : c.Ok addr) (hb : b < c.mem.heap.blocks.next) :
    if c.mine b then Heap.count c.mem.heap.released b = 0 ∧ c.mem.owners b ≤ 1
    else c.mem.owners b + Heap.count c.mem.heap.released b = 1 := by
  have hone := hok.ledger.one b
  have hlent := hok.ledger.lent b
  have hall : c.mem.heap.allocated b = 1 := if_pos hb
  have hle := hok.ledger.owners_le b
  rw [owners_eq] at hle ⊢
  split
  case isTrue hm =>
    rw [hm, Bool.toNat_true] at hone
    omega
  case isFalse hm =>
    rw [Bool.not_eq_true] at hm
    rw [hm, Bool.toNat_false] at hone hlent
    omega

theorem Ok.exists_iff (hok : c.Ok addr) (i : MsgId) :
    (c.mem.msgs.get i).isSome ↔ 0 < c.held i := by
  have hrefs := hok.refs i
  rw [← hok.loads.content_isSome]
  cases hq : c.mem.content addr i with
  | none =>
    rw [hq, Option.elim_none] at hrefs
    simp [hrefs]
  | some q =>
    rw [hq, Option.elim_some] at hrefs
    simp [hrefs.2]

/-- A duplicate has the content of its original, one reference, and blocks of its own. -/
theorem Ok.dup (hok : c.Ok addr) (hi : 0 < c.held i) :
    ∃ j q c', c.step (.dupMsg i) = some (.msg (some j), c') ∧ c.mem.content addr i = some q ∧
      c'.mem.content addr i = some q ∧
      c'.mem.content addr j = some { q with ref := 1, value := ownValue q.value } ∧
      ∀ x ∈ c'.mem.blocksOf i, ∀ y ∈ c'.mem.blocksOf j, x.1 ≠ y.1 := by
  obtain ⟨m, q, hm, hq, hcontent, -⟩ := hok.held hi
  obtain ⟨m', H', hdup, he⟩ := psDupMsg_effect hok.ledger hok.loads hm hq
  have hne : i ≠ c.mem.msgs.next := (Cells.lt_next hm).ne
  have hop : c.allowed (.dupMsg i) := decide_eq_true hi
  refine ⟨c.mem.msgs.next, q, c.after (.dupMsg i) (.msg (some c.mem.msgs.next))
    { c.mem with heap := H', msgs := c.mem.msgs.alloc m', statLiveMsg := c.mem.statLiveMsg + 1 },
    ?_, hcontent, ?_, ?_, ?_⟩
  · rw [Client.step, if_pos hop, Memory.step, hdup]
    rfl
  · exact (he.content i).trans ((if_neg hne).trans hcontent)
  · exact (he.content _).trans (if_pos rfl)
  · have hold : (c.mem.msgs.alloc m').get i = some m :=
      (Cells.get_alloc _ _ _).trans ((if_neg hne).trans hm)
    have hnew : (c.mem.msgs.alloc m').get c.mem.msgs.next = some m' := Cells.get_alloc_self _ _
    have hapart := he.ledger.apart hne hold hnew
    show ∀ x ∈ ((c.mem.msgs.alloc m').get i).elim [] RawMsg.blocks,
      ∀ y ∈ ((c.mem.msgs.alloc m').get c.mem.msgs.next).elim [] RawMsg.blocks, x.1 ≠ y.1
    rw [hold, hnew]
    exact hapart

/-- In every state that clients reach without 2^32 references to one message: each block
that is not a client's own is in one field of one existing message, or was released
once, and a client's own is in at most one field and was never released; the messages
that exist are those with references; every call returns, and releases what was in the
field it sets or, with its last reference, all that the message owns, each block by its own
destructor if it has one; a duplicate has the content of its original and shares no block
with it; and a message that is not set keeps its content while it exists. -/
theorem message_ownership (hr : start.Reaches h c) (hw : c.mem.refWrap = false)
    (addr : BlockId → UInt64) :
    (∀ b < c.mem.heap.blocks.next,
      if c.mine b then Heap.count c.mem.heap.released b = 0 ∧ c.mem.owners b ≤ 1
      else c.mem.owners b + Heap.count c.mem.heap.released b = 1) ∧
    (∀ i, (c.mem.msgs.get i).isSome ↔ 0 < c.held i) ∧
    (∀ op, c.allowed op → ∃ r c', c.step op = some (r, c') ∧
      c'.mem.heap.released = c.mem.heap.released ++ op.releases c) ∧
    (∀ i, 0 < c.held i → ∃ j q c', c.step (.dupMsg i) = some (.msg (some j), c') ∧
      c.mem.content addr i = some q ∧ c'.mem.content addr i = some q ∧
      c'.mem.content addr j = some { q with ref := 1, value := ownValue q.value } ∧
      ∀ x ∈ c'.mem.blocksOf i, ∀ y ∈ c'.mem.blocksOf j, x.1 ≠ y.1) ∧
    ∀ k c' j q q', c.Reaches k c' → c'.mem.refWrap = false → (∀ e ∈ k, e.1.sets ≠ some j) →
      c.mem.content addr j = some q → c'.mem.content addr j = some q' →
      q' = { q with ref := q'.ref } := by
  have hok : c.Ok addr := hr.ok hw
  refine ⟨fun b hb => hok.accounted hb, hok.exists_iff, fun op hop => ?_,
    fun i hi => hok.dup hi, fun k c' j q q' hk hw' hsets hq => (hok.kept hk hw' hsets hq).2 q'⟩
  obtain ⟨r, c', hs⟩ := hok.step hw hop
  exact ⟨r, c', hs.step, hs.released⟩

/-- A text message is duplicated, the original is given a buffer and dropped: its topic and
its text were released, the buffer by the client's destructor. -/
theorem message_ownership_dup : ∃ (h : List Label) (c : Client), start.Reaches h c ∧
    c.mem.heap.released = [(2, .free), (1, .free), (5, .client 7)] ∧
    c.mem.owners 2 + Heap.count c.mem.heap.released 2 = 1 ∧
    c.mem.owners 4 + Heap.count c.mem.heap.released 4 = 1 ∧
    ((c.mem.msgs.get 1).isSome ↔ 0 < c.held 1) := by
  have hcalls : (exec Client.step [.alloc [98, 0], .newMsg (some 0) 0x400 (.str (some 0)), .dupMsg 0,
      .alloc [1, 2, 3], .msgSetValue 0 0x500 (.buf (some 5) 2 (some (.client 7))),
      .unrefMsg (some 0)] start).map (fun (_, c) =>
        (c.mem.heap.released, !c.mem.refWrap && !c.mine 2 && !c.mine 4 && c.mem.heap.blocks.next = 6)) =
      some ([(2, .free), (1, .free), (5, .client 7)], true) := by
    decide +kernel
  obtain ⟨⟨rs, c⟩, hexec, hfacts⟩ := Option.map_eq_some_iff.mp hcalls
  simp only [Prod.mk.injEq, Bool.and_eq_true, Bool.not_eq_true', decide_eq_true_eq] at hfacts
  obtain ⟨hreleased, ⟨⟨hw, hmine₂⟩, hmine₄⟩, hnext⟩ := hfacts
  obtain ⟨hblocks, hexists, -⟩ := message_ownership (run_of_exec hexec) hw fun _ => 0
  have htwo := hblocks 2 (by omega)
  have hfour := hblocks 4 (by omega)
  rw [hmine₂] at htwo
  rw [hmine₄] at hfour
  exact ⟨_, c, run_of_exec hexec, hreleased, htwo, hfour, hexists 1⟩

/-- One more reference to a message, whatever its counter says. -/
theorem ref_step {m : RawMsg} (hm : c.mem.msgs.get i = some m) (hi : 0 < c.held i) :
    ∃ c', c.step (.refMsg (some i)) = some (.msg (some i), c') ∧ c'.mem.heap = c.mem.heap ∧
      c'.held i = c.held i + 1 ∧ c'.mem.msgs.get i = some { m with ref := m.ref + 1 } := by
  have hop : c.allowed (.refMsg (some i)) := decide_eq_true hi
  refine ⟨c.after (.refMsg (some i)) (.msg (some i)) { c.mem with
    msgs := c.mem.msgs.set i (some { m with ref := m.ref + 1 })
    refWrap := c.mem.refWrap || decide (m.ref + 1 = 0) }, ?_, rfl, ?_, ?_⟩
  · rw [Client.step, if_pos hop, Memory.step, psRefMsg, hm]
    rfl
  · simp [after, Op.gives, Ret.gets]
  · exact (Cells.get_set hm _ _).trans (if_pos rfl)

theorem refs_run {m : RawMsg} (hm : c.mem.msgs.get i = some m) (hi : 0 < c.held i) (n : ℕ) :
    ∃ k c', c.Reaches k c' ∧ c'.mem.heap = c.mem.heap ∧ c'.held i = c.held i + n ∧
      c'.mem.msgs.get i = some { m with ref := m.ref + UInt32.ofNat n } := by
  induction n with
  | zero => exact ⟨[], c, .nil, rfl, rfl, by simpa using hm⟩
  | succ n ih =>
    obtain ⟨k, c₁, hk, hheap, hheld, hget⟩ := ih
    obtain ⟨c₂, hstep, hheap₂, hheld₂, hget₂⟩ := ref_step hget (by omega)
    refine ⟨k ++ [(.refMsg (some i), .msg (some i))], c₂, hk.snoc hstep, hheap₂.trans hheap,
      by omega, ?_⟩
    rw [hget₂, UInt32.ofNat_add, ← UInt32.add_assoc]
    rfl

/-- With `2^32 + 1` references to a message its counter is 1 again, and the first of them
that is dropped releases the topic. -/
theorem message_ownership_wraps : ¬ ∀ (h : List Label) (c : Client), start.Reaches h c →
    ∀ op r c', c.step op = some (r, c') →
      c'.mem.heap.released = c.mem.heap.released ++ op.releases c := by
  intro hall
  have hcalls : (exec Client.step [.alloc [98, 0], .newMsg (some 0) 0x800 .zero] start).bind
      (fun (_, c) => (c.mem.msgs.get 0).bind fun m => (RawMsg.release c.mem.heap m).map fun H =>
        (m.ref, c.held 0, H.released.length, c.mem.heap.released.length)) = some (1, 1, 1, 0) := by
    decide +kernel
  obtain ⟨⟨rs, c⟩, hexec, hbind⟩ := Option.bind_eq_some_iff.mp hcalls
  obtain ⟨m, hm, hmap⟩ := Option.bind_eq_some_iff.mp hbind
  obtain ⟨H', hrelease, hfacts⟩ := Option.map_eq_some_iff.mp hmap
  simp only [Prod.mk.injEq] at hfacts
  obtain ⟨href, hheld, hafter, hbefore⟩ := hfacts
  obtain ⟨k, c', hk, hheap, hheld', hget⟩ := refs_run hm (by omega) (2 ^ 32)
  have hback : m.ref + UInt32.ofNat (2 ^ 32) = m.ref := by
    rw [show UInt32.ofNat (2 ^ 32) = 0 from rfl, UInt32.add_zero]
  rw [hback] at hget
  have hop : c'.allowed (.unrefMsg (some 0)) := decide_eq_true (by omega)
  have hstep : c'.step (.unrefMsg (some 0)) = some (.unit,
      c'.after (.unrefMsg (some 0)) .unit { c'.mem with
        heap := H', msgs := c'.mem.msgs.free 0, statLiveMsg := c'.mem.statLiveMsg - 1 }) := by
    rw [Client.step, if_pos hop, Memory.step, psUnrefMsg, hget, hheap, Option.bind_eq_bind,
      Option.bind_some, if_pos (show m.ref - 1 = 0 by rw [href]; rfl)]
    show (((RawMsg.release c.mem.heap m).bind _).map _).map _ = _
    rw [hrelease]
    rfl
  have hsame := hall _ c' ((run_of_exec hexec).append hk) _ _ _ hstep
  have hmany : c'.held 0 ≠ 1 := by omega
  rw [Op.releases, if_neg hmany, List.append_nil, hheap] at hsame
  have hlen : H'.released.length = c.mem.heap.released.length := congrArg List.length hsame
  omega

end PubSub.Memory.Client
