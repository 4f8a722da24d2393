import PubSub.Bus.References
import PubSub.Memory.Steps

/-! The calls of clients, one after the other: the account, the references and what the
messages say, in every state that is reached. -/

namespace PubSub

open Lib

namespace Memory

/-- The message whose topic, response topic or value the call sets. -/
def Op.sets : Op → Option MsgId
  | .msgSetTopic msg _ => some msg
  | .msgSetRtopic msg _ => some msg
  | .msgSetValue msg _ _ => some msg
  | _ => none

/-- What the call is to release: what was in the field it sets, or with the last reference
all that the message holds. -/
def Op.releases (c : Client) : Op → List (BlockId × PsDtor)
  | .msgSetTopic msg _ => (c.mem.msgs.get msg).elim [] fun m => disposals (textBlock m.topic)
  | .msgSetRtopic msg _ => (c.mem.msgs.get msg).elim [] fun m => disposals (textBlock m.rtopic)
  | .msgSetValue msg _ _ => (c.mem.msgs.get msg).elim [] fun m => disposals m.valueBlocks
  | .unrefMsg (some msg) =>
    if c.held msg = 1 then (c.mem.msgs.get msg).elim [] fun m => disposals m.blocks else []
  | _ => []

theorem content_next (addr : BlockId → UInt64) (M : Memory) :
    M.content addr M.msgs.next = none := by
  rw [content, Cells.get_next, Option.bind_none]

namespace Client

variable {addr : BlockId → UInt64} {c c' : Client} {op : Op} {r : Ret} {M' : Memory} {i : MsgId}
  {out : List (BlockId × PsDtor)} {q : PsMsg} {p : Option PsMsg} {h k : List Label}

/-- The account of the blocks, messages that can be read, and a counter in each that counts
the references. -/
structure Ok (addr : BlockId → UInt64) (c : Client) : Prop where
  ledger : c.mem.Ledger c.mine
  loads : c.mem.Loads addr
  refs : ∀ i, (c.mem.content addr i).elim (c.held i = 0) fun p =>
    p.ref.toNat = c.held i ∧ 0 < c.held i

theorem Ok.start : start.Ok addr where
  ledger := .start
  loads _ _ hm := by cases hm
  refs _ := rfl

/-- A call that returns, with what it releases and what it leaves of the messages. -/
structure StepOk (addr : BlockId → UInt64) (c : Client) (op : Op) (r : Ret) (c' : Client) :
    Prop where
  step : c.step op = some (r, c')
  released : c'.mem.heap.released = c.mem.heap.released ++ op.releases c
  ok : c'.mem.refWrap = false → c'.Ok addr
  kept : ∀ j q q', op.sets ≠ some j → c.mem.content addr j = some q →
    c'.mem.content addr j = some q' → q' = { q with ref := q'.ref }
  gone : ∀ j, j < c.mem.msgs.next → c.mem.content addr j = none → c'.mem.content addr j = none
  next_le : c.mem.msgs.next ≤ c'.mem.msgs.next

/-- A message that a client holds exists. -/
theorem Ok.held (hok : c.Ok addr) (hi : 0 < c.held i) :
    ∃ m q, c.mem.msgs.get i = some m ∧ m.load addr c.mem.heap = some q ∧
      c.mem.content addr i = some q ∧ q.ref.toNat = c.held i := by
  have hrefs := hok.refs i
  have hsome := hok.loads.content_isSome i
  cases hm : c.mem.msgs.get i with
  | none =>
    rw [hm, Option.isSome_none, Option.isSome_eq_false_iff, Option.isNone_iff_eq_none] at hsome
    rw [hsome] at hrefs
    exact absurd hrefs hi.ne'
  | some m =>
    obtain ⟨q, hq, hcontent⟩ := hok.loads.exists hm
    rw [hcontent] at hrefs
    exact ⟨m, q, rfl, hq, hcontent, hrefs.1⟩

/-- One message changed, and its counter with the references. -/
theorem StepOk.of_effect (hok : c.Ok addr) (hop : c.allowed op)
    (hstep : c.mem.step op = some (r, M'))
    (he : Effect addr c.mem c.mine i (op.releases c) op.given p M') (hmine : r.mine = none)
    (hgives : ∀ j, op.gives = some j → j = i) (hgets : ∀ j, r.gets = some j → j = i)
    (hrefs : M'.refWrap = false → p.elim ((c.after op r M').held i = 0) fun q =>
      q.ref.toNat = (c.after op r M').held i ∧ 0 < (c.after op r M').held i)
    (hkept : op.sets ≠ some i → ∀ q q', c.mem.content addr i = some q → p = some q' →
      q' = { q with ref := q'.ref })
    (hi : c.mem.content addr i = none → c.mem.msgs.next ≤ i)
    (hnext : c.mem.msgs.next ≤ M'.msgs.next) : StepOk addr c op r (c.after op r M') where
  step := by rw [Client.step, if_pos hop, hstep, Option.map_some]
  released := he.released
  ok hw := {
    ledger := by
      have hl := he.ledger
      unfold after
      simpa [hmine] using hl
    loads := he.loads
    refs := fun j => by
      show (M'.content addr j).elim _ _
      rw [he.content j]
      split
      case isTrue hj =>
        rw [hj]
        exact hrefs hw
      case isFalse hj =>
        have hold := hok.refs j
        have hheld : (c.after op r M').held j = c.held j := by
          show c.held j - (if op.gives = some j then 1 else 0) +
            (if r.gets = some j then 1 else 0) = c.held j
          rw [if_neg fun hg => hj (hgives j hg), if_neg fun hg => hj (hgets j hg)]
          rfl
        rwa [hheld] }
  kept j q q' hsets hq hq' := by
    have hcontent := he.content j
    split at hcontent
    case isTrue hj =>
      subst hj
      exact hkept hsets q q' hq (hcontent.symm.trans hq')
    case isFalse =>
      obtain rfl : q = q' := Option.some.inj (hq.symm.trans (hcontent.symm.trans hq'))
      rfl
  gone j hlt hnone := by
    have hcontent := he.content j
    rw [if_neg fun hj => by
      subst hj
      exact absurd (hi hnone) (Nat.not_le.mpr hlt)] at hcontent
    exact hcontent.trans hnone
  next_le := hnext

/-- A call on a message that sets one of its fields. -/
theorem StepOk.of_set (hok : c.Ok addr) (hop : c.allowed op) {m' : RawMsg} {H' : Blocks}
    {q' : PsMsg}
    (hstep : c.mem.step op =
      some (.unit, { c.mem with heap := H', msgs := c.mem.msgs.set i (some m') }))
    (he : Effect addr c.mem c.mine i (op.releases c) op.given (some q')
      { c.mem with heap := H', msgs := c.mem.msgs.set i (some m') })
    (hsets : op.sets = some i) (hgives : op.gives = none) (hheld : 0 < c.held i)
    (hq : c.mem.content addr i = some q) (href : q'.ref.toNat = c.held i) :
    ∃ r c', StepOk addr c op r c' := by
  refine ⟨.unit, _, .of_effect hok hop hstep he rfl (by simp [hgives]) (by simp [Ret.gets])
    (fun _ => ?_) (fun hne => absurd hsets hne) (by simp [hq]) le_rfl⟩
  have hsame : (c.after op .unit
      { c.mem with heap := H', msgs := c.mem.msgs.set i (some m') }).held i = c.held i := by
    simp [after, hgives, Ret.gets]
  rw [Option.elim_some, hsame]
  exact ⟨href, hheld⟩

/-- A call that makes a message. -/
theorem StepOk.of_new (hok : c.Ok addr) (hop : c.allowed op) {m' : RawMsg} {H' : Blocks}
    {q' : PsMsg} {stat : UInt32}
    (hstep : c.mem.step op = some (.msg (some c.mem.msgs.next),
      { c.mem with heap := H', msgs := c.mem.msgs.alloc m', statLiveMsg := stat }))
    (he : Effect addr c.mem c.mine c.mem.msgs.next (op.releases c) op.given (some q')
      { c.mem with heap := H', msgs := c.mem.msgs.alloc m', statLiveMsg := stat })
    (hgives : op.gives = none) (href : q'.ref = 1) :
    ∃ r c', StepOk addr c op r c' := by
  have hzero := hok.refs c.mem.msgs.next
  rw [content_next, Option.elim_none] at hzero
  refine ⟨.msg (some c.mem.msgs.next), _, .of_effect hok hop hstep he rfl (by simp [hgives])
    (fun j hj => (Option.some.inj hj).symm) (fun _ => ?_) (fun _ q q₂ hq => ?_) (fun _ => le_rfl)
    (Nat.le_succ _)⟩
  · have hone : (c.after op (.msg (some c.mem.msgs.next)) { c.mem with
        heap := H', msgs := c.mem.msgs.alloc m', statLiveMsg := stat }).held c.mem.msgs.next = 1 := by
      simp [after, hgives, Ret.gets, hzero]
    rw [Option.elim_some, hone, href]
    exact ⟨rfl, Nat.one_pos⟩
  · rw [content_next] at hq
    cases hq

/-- A call on NULL. -/
theorem StepOk.nothing (hok : c.Ok addr) (hop : c.allowed op)
    (hstep : c.mem.step op = some (r, c.mem)) (hgives : op.gives = none) (hgets : r.gets = none)
    (hmine : r.mine = none) (hgiven : op.given = []) (hreleases : op.releases c = []) :
    ∃ r c', StepOk addr c op r c' := by
  have hafter : c.after op r c.mem = c := by
    unfold after
    simp [hgives, hgets, hmine, hgiven]
  refine ⟨r, c, ?_, ?_, fun _ => hok, fun j q q' _ hq hq' => ?_, fun _ _ => id, le_rfl⟩
  · rw [Client.step, if_pos hop, hstep]
    exact congrArg (fun c => some (r, c)) hafter
  · rw [hreleases, List.append_nil]
  · obtain rfl := Option.some.inj (hq.symm.trans hq')
    rfl

/-- A client's own allocation. -/
theorem Ok.step_alloc (hok : c.Ok addr) (bytes : List UInt8) :
    ∃ r c', StepOk addr c (.alloc bytes) r c' := by
  have hsame : ∀ j, Memory.content addr { c.mem with heap := (c.mem.heap.alloc bytes).2 } j =
      c.mem.content addr j := alloc_content hok.ledger bytes
  refine ⟨.block c.mem.heap.blocks.next,
    c.after (.alloc bytes) (.block c.mem.heap.blocks.next)
      { c.mem with heap := (c.mem.heap.alloc bytes).2 }, rfl, (List.append_nil _).symm,
    fun _ => ⟨?_, ?_, ?_⟩, ?_, fun j _ hnone => (hsame j).trans hnone, le_rfl⟩
  · have hl := hok.ledger.alloc bytes
    unfold after
    simpa [Ret.mine, Op.given, eq_comm] using hl
  · intro j m hm
    obtain ⟨q, hq, -⟩ := hok.loads.exists hm
    exact ⟨q, (alloc_load hok.ledger bytes hm).trans hq⟩
  · intro j
    show (Memory.content addr { c.mem with heap := (c.mem.heap.alloc bytes).2 } j).elim _ _
    rw [hsame j]
    exact hok.refs j
  · intro j q q' _ hq hq'
    obtain rfl := Option.some.inj (hq.symm.trans ((hsame j).symm.trans hq'))
    rfl

/-- One reference more. -/
theorem Ok.step_ref {msg : MsgId} (hok : c.Ok addr) (hw : c.mem.refWrap = false)
    (hop : c.allowed (.refMsg (some msg))) : ∃ r c', StepOk addr c (.refMsg (some msg)) r c' := by
  obtain ⟨m, q, hm, hq, hcontent, href⟩ := hok.held (of_decide_eq_true hop)
  have hmref : q.ref = m.ref := (RawMsg.load_eq_some.mp hq).1
  have he := ref_effect hok.ledger hok.loads hm hq (m.ref + 1)
    (c.mem.refWrap || decide (m.ref + 1 = 0))
  have hstep : c.mem.step (.refMsg (some msg)) = some (.msg (some msg), { c.mem with
      msgs := c.mem.msgs.set msg (some { m with ref := m.ref + 1 })
      refWrap := c.mem.refWrap || decide (m.ref + 1 = 0) }) := by
    rw [Memory.step, psRefMsg, hm]
    rfl
  refine ⟨_, _, StepOk.of_effect hok hop hstep he rfl (by simp [Op.gives])
    (fun j hj => (Option.some.inj hj).symm) (fun hwrap => ?_) (fun _ q₁ q₂ hq₁ hq₂ => ?_)
    (by simp [hcontent]) le_rfl⟩
  · have hroom : m.ref + 1 ≠ 0 := by
      have : (c.mem.refWrap || decide (m.ref + 1 = 0)) = false := hwrap
      simpa [hw] using this
    have hheld : (c.after (.refMsg (some msg)) (.msg (some msg)) { c.mem with
        msgs := c.mem.msgs.set msg (some { m with ref := m.ref + 1 })
        refWrap := c.mem.refWrap || decide (m.ref + 1 = 0) }).held msg = c.held msg + 1 := by
      simp [after, Op.gives, Ret.gets]
    rw [Option.elim_some, hheld, toNat_add_one hroom, ← hmref, href]
    exact ⟨rfl, Nat.succ_pos _⟩
  · obtain rfl := Option.some.inj (hcontent.symm.trans hq₁)
    obtain rfl := Option.some.inj hq₂
    rfl

/-- One reference less, which may be the last one. -/
theorem Ok.step_unref {msg : MsgId} (hok : c.Ok addr)
    (hop : c.allowed (.unrefMsg (some msg))) :
    ∃ r c', StepOk addr c (.unrefMsg (some msg)) r c' := by
  have hpos : 0 < c.held msg := of_decide_eq_true hop
  obtain ⟨m, q, hm, hq, hcontent, href⟩ := hok.held hpos
  have hmref : q.ref = m.ref := (RawMsg.load_eq_some.mp hq).1
  have hsub : (m.ref - 1).toNat = c.held msg - 1 := by
    rw [toNat_sub_one (by rw [← hmref]; omega), ← hmref, href]
  have hheld : ∀ M', (c.after (.unrefMsg (some msg)) .unit M').held msg = c.held msg - 1 := by
    intro M'
    simp [after, Op.gives, Ret.gets]
  by_cases hlast : m.ref - 1 = 0
  · obtain ⟨H', hrelease, he⟩ := release_effect hok.ledger hok.loads hm hq
    have hone : c.held msg = 1 := by
      rw [hlast] at hsub
      have hzero : (0 : UInt32).toNat = 0 := rfl
      omega
    have hreleases : disposals m.blocks = (Op.unrefMsg (some msg)).releases c := by
      rw [Op.releases, if_pos hone, hm, Option.elim_some]
    rw [hreleases] at he
    have hstep : c.mem.step (.unrefMsg (some msg)) = some (.unit, { c.mem with
        heap := H', msgs := c.mem.msgs.free msg, statLiveMsg := c.mem.statLiveMsg - 1 }) := by
      rw [Memory.step, psUnrefMsg, hm, Option.bind_eq_bind, Option.bind_some, if_pos hlast,
        hrelease]
      rfl
    refine ⟨_, _, StepOk.of_effect hok hop hstep he rfl
      (fun j hj => (Option.some.inj hj).symm) (by simp [Ret.gets]) (fun _ => ?_)
      (fun _ q₁ q₂ _ hq₂ => by cases hq₂) (by simp [hcontent]) le_rfl⟩
    rw [Option.elim_none, hheld, hone]
  · have hmore : c.held msg ≠ 1 := fun hone => by
      apply hlast
      apply UInt32.toNat_inj.mp
      rw [hsub, hone]
      rfl
    have he := ref_effect hok.ledger hok.loads hm hq (m.ref - 1) c.mem.refWrap
    have hreleases : [] = (Op.unrefMsg (some msg)).releases c := by
      rw [Op.releases, if_neg hmore]
    have hstep : c.mem.step (.unrefMsg (some msg)) = some (.unit, { c.mem with
        msgs := c.mem.msgs.set msg (some { m with ref := m.ref - 1 }) }) := by
      rw [Memory.step, psUnrefMsg, hm, Option.bind_eq_bind, Option.bind_some, if_neg hlast]
      rfl
    refine ⟨_, _, StepOk.of_effect hok hop hstep (hreleases ▸ he) rfl
      (fun j hj => (Option.some.inj hj).symm) (by simp [Ret.gets]) (fun _ => ?_)
      (fun _ q₁ q₂ hq₁ hq₂ => ?_) (by simp [hcontent]) le_rfl⟩
    · rw [Option.elim_some, hheld, hsub]
      exact ⟨rfl, by omega⟩
    · obtain rfl := Option.some.inj (hcontent.symm.trans hq₁)
      obtain rfl := Option.some.inj hq₂
      rfl

/-- Every call that a client is allowed to make returns. -/
theorem Ok.step (hok : c.Ok addr) (hw : c.mem.refWrap = false) (hop : c.allowed op) :
    ∃ r c', StepOk addr c op r c' := by
  cases op with
  | alloc bytes => exact hok.step_alloc bytes
  | newMsg topic flags args =>
    cases topic with
    | none => exact StepOk.nothing hok hop rfl rfl rfl rfl rfl rfl
    | some topic =>
      have hboth : c.mem.textOk (some topic) ∧ c.mem.argsOk flags args := by
        simpa [allowed] using hop
      obtain ⟨t, v, m', H', -, -, hnew, he⟩ := psNewMsg_effect hok.ledger hok.loads hboth.1 hboth.2
      exact StepOk.of_new hok hop (by rw [Memory.step, hnew, Option.map_some]) he rfl rfl
  | dupMsg msg =>
    obtain ⟨m, q, hm, hq, -, -⟩ := hok.held (of_decide_eq_true hop)
    obtain ⟨m', H', hdup, he⟩ := psDupMsg_effect hok.ledger hok.loads hm hq
    exact StepOk.of_new hok hop (by rw [Memory.step, hdup, Option.map_some]) he rfl rfl
  | refMsg msg =>
    cases msg with
    | none => exact StepOk.nothing hok hop rfl rfl rfl rfl rfl rfl
    | some msg => exact hok.step_ref hw hop
  | unrefMsg msg =>
    cases msg with
    | none => exact StepOk.nothing hok hop rfl rfl rfl rfl rfl rfl
    | some msg => exact hok.step_unref hop
  | msgSetTopic msg topic =>
    have hboth : 0 < c.held msg ∧ c.mem.textOk topic := by simpa [allowed] using hop
    obtain ⟨m, q, hm, hq, hcontent, href⟩ := hok.held hboth.1
    obtain ⟨t, m', H', -, hset, he⟩ := psMsgSetTopic_effect hok.ledger hok.loads hm hq hboth.2
    have hreleases : disposals (textBlock m.topic) = (Op.msgSetTopic msg topic).releases c := by
      rw [Op.releases, hm, Option.elim_some]
    rw [hreleases] at he
    exact StepOk.of_set hok hop (by rw [Memory.step, hset, Option.map_some]) he rfl rfl hboth.1 hcontent href
  | msgSetRtopic msg rtopic =>
    have hboth : 0 < c.held msg ∧ c.mem.textOk rtopic := by simpa [allowed] using hop
    obtain ⟨m, q, hm, hq, hcontent, href⟩ := hok.held hboth.1
    obtain ⟨t, m', H', -, hset, he⟩ := psMsgSetRtopic_effect hok.ledger hok.loads hm hq hboth.2
    have hreleases : disposals (textBlock m.rtopic) = (Op.msgSetRtopic msg rtopic).releases c := by
      rw [Op.releases, hm, Option.elim_some]
    rw [hreleases] at he
    exact StepOk.of_set hok hop (by rw [Memory.step, hset, Option.map_some]) he rfl rfl hboth.1 hcontent href
  | msgSetValue msg flags args =>
    have hboth : 0 < c.held msg ∧ c.mem.argsOk flags args := by simpa [allowed] using hop
    obtain ⟨m, q, hm, hq, hcontent, href⟩ := hok.held hboth.1
    obtain ⟨v, m', H', -, hset, he⟩ := psMsgSetValue_effect hok.ledger hok.loads hm hq hboth.2
    have hreleases : disposals m.valueBlocks = (Op.msgSetValue msg flags args).releases c := by
      rw [Op.releases, hm, Option.elim_some]
    rw [hreleases] at he
    exact StepOk.of_set hok hop (by rw [Memory.step, hset, Option.map_some]) he rfl rfl hboth.1 hcontent href

/-! ### Runs -/

theorem onMsg_refWrap {M M' : Memory} {f : Blocks → RawMsg → Option (RawMsg × Blocks)}
    (h : M.onMsg i f = some M') : M'.refWrap = M.refWrap := by
  simp only [onMsg, Option.bind_eq_bind, Option.bind_eq_some_iff] at h
  obtain ⟨m, -, ⟨m', H'⟩, -, heq⟩ := h
  cases heq
  rfl

theorem psNewMsg_refWrap {M M' : Memory} {topic : Option BlockId} {flags : UInt32} {args : PsUnion}
    {o : Option MsgId} (h : M.psNewMsg topic flags args = some (o, M')) : M'.refWrap = M.refWrap := by
  cases topic with
  | none =>
    cases h
    rfl
  | some topic =>
    obtain ⟨⟨m, H'⟩, -, heq⟩ := Option.bind_eq_some_iff.mp h
    cases heq
    rfl

theorem psDupMsg_refWrap {M M' : Memory} {j : MsgId} (h : M.psDupMsg i = some (j, M')) :
    M'.refWrap = M.refWrap := by
  obtain ⟨m, -, hdup⟩ := Option.bind_eq_some_iff.mp h
  obtain ⟨⟨m', H'⟩, -, heq⟩ := Option.bind_eq_some_iff.mp hdup
  cases heq
  rfl

theorem psUnrefMsg_refWrap {M M' : Memory} {o : Option MsgId} (h : M.psUnrefMsg o = some M') :
    M'.refWrap = M.refWrap := by
  cases o with
  | none =>
    cases h
    rfl
  | some msg =>
    obtain ⟨m, -, hunref⟩ := Option.bind_eq_some_iff.mp h
    split at hunref
    case isTrue =>
      obtain ⟨H', -, heq⟩ := Option.bind_eq_some_iff.mp hunref
      cases heq
      rfl
    case isFalse =>
      cases hunref
      rfl

theorem psRefMsg_refWrap {M M' : Memory} {o : Option MsgId} (h : M.psRefMsg o = some M')
    (hw : M'.refWrap = false) : M.refWrap = false := by
  cases o with
  | none =>
    cases h
    exact hw
  | some msg =>
    obtain ⟨m, -, heq⟩ := Option.bind_eq_some_iff.mp h
    cases heq
    exact (Bool.or_eq_false_iff.mp hw).1

/-- The flag stays set. -/
theorem step_refWrap {M M' : Memory} (h : M.step op = some (r, M')) (hw : M'.refWrap = false) :
    M.refWrap = false := by
  cases op with
  | alloc bytes =>
    cases h
    exact hw
  | newMsg topic flags args =>
    obtain ⟨⟨o, M₁⟩, hnew, heq⟩ := Option.map_eq_some_iff.mp h
    cases heq
    rwa [psNewMsg_refWrap hnew] at hw
  | dupMsg msg =>
    obtain ⟨⟨o, M₁⟩, hdup, heq⟩ := Option.map_eq_some_iff.mp h
    cases heq
    rwa [psDupMsg_refWrap hdup] at hw
  | refMsg msg =>
    obtain ⟨M₁, href, heq⟩ := Option.map_eq_some_iff.mp h
    cases heq
    exact psRefMsg_refWrap href hw
  | unrefMsg msg =>
    obtain ⟨M₁, hunref, heq⟩ := Option.map_eq_some_iff.mp h
    cases heq
    rwa [psUnrefMsg_refWrap hunref] at hw
  | msgSetTopic msg topic =>
    obtain ⟨M₁, hset, heq⟩ := Option.map_eq_some_iff.mp h
    cases heq
    rwa [onMsg_refWrap hset] at hw
  | msgSetRtopic msg rtopic =>
    obtain ⟨M₁, hset, heq⟩ := Option.map_eq_some_iff.mp h
    cases heq
    rwa [onMsg_refWrap hset] at hw
  | msgSetValue msg flags args =>
    obtain ⟨M₁, hset, heq⟩ := Option.map_eq_some_iff.mp h
    cases heq
    rwa [onMsg_refWrap hset] at hw

theorem step_eq_some (h : c.step op = some (r, c')) :
    c.allowed op ∧ c.mem.step op = some (r, c'.mem) := by
  unfold Client.step at h
  split at h
  case isTrue hop =>
    obtain ⟨⟨r', M'⟩, hstep, heq⟩ := Option.map_eq_some_iff.mp h
    cases heq
    exact ⟨hop, hstep⟩
  case isFalse => cases h

theorem Ok.stepOk (hok : c.Ok addr) (h : c.step op = some (r, c')) (hw : c'.mem.refWrap = false) :
    StepOk addr c op r c' := by
  obtain ⟨hop, hstep⟩ := step_eq_some h
  obtain ⟨r', c₁, hs⟩ := hok.step (step_refWrap hstep hw) hop
  obtain ⟨rfl, rfl⟩ : r' = r ∧ c₁ = c' := by simpa using hs.step.symm.trans h
  exact hs

/-- As long as no counter wraps, the messages and their blocks are in order. -/
theorem Ok.run (hok : c.Ok addr) (hr : c.Reaches h c') (hw : c'.mem.refWrap = false) :
    c'.Ok addr := by
  induction hr with
  | nil => exact hok
  | snoc _ hs ih =>
    have hok' := ih (step_refWrap (step_eq_some hs).2 hw)
    exact (hok'.stepOk hs hw).ok hw

theorem Reaches.ok (hr : start.Reaches h c) (hw : c.mem.refWrap = false) : c.Ok addr :=
  Ok.start.run hr hw

/-- A message that is still there and was not set says what it said. -/
theorem Ok.kept (hok : c.Ok addr) (hr : c.Reaches k c') (hw : c'.mem.refWrap = false)
    (hsets : ∀ e ∈ k, e.1.sets ≠ some i) (hq : c.mem.content addr i = some q) :
    i < c'.mem.msgs.next ∧
      ∀ q', c'.mem.content addr i = some q' → q' = { q with ref := q'.ref } := by
  induction hr with
  | nil =>
    refine ⟨?_, fun q' hq' => ?_⟩
    · obtain ⟨m, hm, -⟩ := Option.bind_eq_some_iff.mp hq
      exact Cells.lt_next hm
    · obtain rfl := Option.some.inj (hq.symm.trans hq')
      rfl
  | @snoc k c₁ c₂ e hr hs ih =>
    have hw₁ := step_refWrap (step_eq_some hs).2 hw
    obtain ⟨hlt, hkept⟩ := ih hw₁ fun e he => hsets e (List.mem_append_left _ he)
    have hstep := (hok.run hr hw₁).stepOk hs hw
    refine ⟨hlt.trans_le hstep.next_le, fun q' hq' => ?_⟩
    cases hq₁ : c₁.mem.content addr i with
    | none =>
      rw [hstep.gone i hlt hq₁] at hq'
      cases hq'
    | some q₁ =>
      have hne := hsets e (List.mem_append_right _ List.mem_cons_self)
      rw [hstep.kept i q₁ q' hne hq₁ hq', hkept q₁ hq₁]

end Client

end Memory

end PubSub
