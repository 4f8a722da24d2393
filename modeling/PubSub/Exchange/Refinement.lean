import PubSub.Exchange.Sending
import PubSub.Progress

/-! The bus against the exchange. Every run of the bus is a run of the exchange, with the
same results. A client that keeps to its duties gets an answer from the bus exactly when the
exchange has one. -/

namespace PubSub

open Lib Bus

variable {Q : Type → Type} [PsQueue Q] [LawfulPsQueue Q] [OrderedPsQueue Q]

namespace Abstracts
variable {s s' : Bus Q} {x : Exchange} {su : SubId} {msg : MsgId} {n : ℕ} {op : Op} {r : Ret}

theorem subsCount {topic : Option Str} (h : Abstracts s x) (hok : s.Ok)
    (hc : psSubsCount s topic = some n) : x.subsCount topic = n := by
  cases topic with
  | none =>
    cases hc
    rfl
  | some text =>
    by_cases ht : text = []
    · subst ht
      cases hc
      rfl
    · let m : PsMsg := ⟨0, none, none, 0, 0, .nil⟩
      have hm : m.nonrecursive = false := by decide
      obtain ⟨k, hk, hvisible⟩ := psSubsCount_eq hm s ht
      cases hk.symm.trans hc
      have hroute : visited m (cutFlags text) = ancestors '.' (cutFlags text) :=
        if_neg (by rw [hm]; exact Bool.false_ne_true)
      rw [route, hroute, ancestors_eq_concat, subscriptionsAt_append, visible_append] at hvisible
      rw [Exchange.subsCount, h.subscriptions hok.names, List.countP_map]
      exact (Nat.add_right_cancel hvisible).symm

theorem map_ret {α : Type} {a : α} {o : Option (α × Exchange)} {f : α → Ret}
    (h : ∃ x', o = some (a, x') ∧ Abstracts s' x') :
    ∃ x', (o.map fun (a, x) => (f a, x)) = some (f a, x') ∧ Abstracts s' x' := by
  obtain ⟨x', rfl, h'⟩ := h
  exact ⟨x', rfl, h'⟩

theorem map_unit {o : Option Exchange} (h : ∃ x', o = some x' ∧ Abstracts s' x') :
    ∃ x', (o.map fun x => (Ret.unit, x)) = some (.unit, x') ∧ Abstracts s' x' := by
  obtain ⟨x', rfl, h'⟩ := h
  exact ⟨x', rfl, h'⟩

/-- A call of the bus is the same call of the exchange, with the same result. -/
theorem step (h : Abstracts s x) (hok : s.Ok) (hs : PubSub.step s op = some (r, s')) :
    ∃ x', x.step (OrderedPsQueue.rank Q) op = some (r, x') ∧ Abstracts s' x' := by
  cases op
  all_goals
    obtain ⟨y, hy, heq⟩ := Option.map_eq_some_iff.mp hs
    cases heq
  case newMsg topic flags args => exact map_ret (h.newMsg hy)
  case dupMsg msg => exact map_ret (f := fun m => .msg (some m)) (h.dupMsg hy)
  case refMsg msg =>
    cases msg with
    | none =>
      cases hy
      exact ⟨x, rfl, h⟩
    | some msg =>
      obtain ⟨m, hm, -⟩ := Option.bind_eq_some_iff.mp hy
      exact ⟨x, if_pos (h.known hm), h.of_messages (psRefMsg_sameContent hy)⟩
  case unrefMsg msg =>
    cases msg with
    | none =>
      cases hy
      exact ⟨x, rfl, h⟩
    | some msg =>
      obtain ⟨m, hm, -⟩ := Option.bind_eq_some_iff.mp hy
      exact ⟨x, if_pos (h.known hm), h.of_messages (psUnrefMsg_sameContent hy)⟩
  case msgSetTopic msg topic =>
    obtain ⟨m, hm, rfl⟩ := psMsgSetTopic_eq_some hy
    exact map_unit (h.editLetter { m with topic := topic } hm rfl)
  case msgSetRtopic msg rtopic =>
    obtain ⟨m, hm, rfl⟩ := psMsgSetRtopic_eq_some hy
    exact map_unit (h.editLetter { m with rtopic := rtopic } hm rfl)
  case msgSetValue msg flags args =>
    obtain ⟨m, m', hm, hm', rfl⟩ := psMsgSetValue_eq_some hy
    refine map_unit (h.editLetter m' hm ?_)
    rw [← psMsgSetVvalue_body, hm']
    rfl
  case newSubscriber queueSize subs => exact map_ret (h.newSubscriber hok hy)
  case freeSubscriber su => exact map_unit (h.freeSubscriber hok hy)
  case setNewMsgCb su cb => exact map_unit (h.setNewMsgCb hy)
  case setNonEmptyCb su cb => exact map_unit (h.setNonEmptyCb hy)
  case get su timeout => exact map_ret (h.get hy)
  case flush su => exact map_ret (f := fun n : ℕ => .int n) (h.flush hy)
  case waiting su =>
    obtain ⟨n, hn, heq⟩ := Option.bind_eq_some_iff.mp hy
    cases heq
    refine ⟨x, ?_, h⟩
    rw [Exchange.step, h.waiting hn]
    rfl
  case overflow su => exact map_ret (h.overflow hy)
  case numSubs su =>
    obtain ⟨n, hn, heq⟩ := Option.bind_eq_some_iff.mp hy
    cases heq
    refine ⟨x, ?_, h⟩
    rw [Exchange.step, h.numSubs hok hn]
    rfl
  case subscribe su topic => exact map_ret (h.subscribe hok hy)
  case subscribeFlags su topic flags => exact map_ret (h.subscribe hok hy)
  case subscribeMany su subs => exact map_ret (f := fun n : ℕ => .int n) (h.subscribeMany hok hy)
  case unsubscribe su topic =>
    obtain ⟨hr, h'⟩ := h.unsubscribe hok hy
    exact ⟨_, congrArg (fun r => some (Ret.int r, _)) hr, h'⟩
  case unsubscribeMany su subs => exact map_ret (f := fun n : ℕ => .int n) (h.unsubscribeMany hok hy)
  case unsubscribeAll su => exact map_ret (f := fun n : ℕ => .int n) (h.unsubscribeAll hok hy)
  case publish msg =>
    cases msg with
    | none =>
      cases hy
      exact ⟨x, rfl, h⟩
    | some msg => exact map_ret (f := fun n : ℕ => .int n) (h.publish hok hy)
  case cleanSticky pre => exact ⟨_, rfl, h.cleanSticky hok hy⟩
  case subsCount topic =>
    obtain ⟨n, hn, heq⟩ := Option.bind_eq_some_iff.mp hy
    cases heq
    exact ⟨x, congrArg (fun n : ℕ => some (Ret.int n, x)) (h.subsCount hok hn), h⟩
  case call msg timeout => exact map_ret (h.call hok hy)
  case waitOne topic timeout => exact map_ret (h.waitOne hok hy)

/-! ### Calls that return -/

theorem get_isSome {timeout : Int64} (h : Abstracts s x) (hx : (x.get su timeout).isSome) :
    (psGet s su timeout).isSome := by
  obtain ⟨y, hy⟩ := Option.isSome_iff_exists.mp hx
  obtain ⟨B, hB, hy⟩ := Option.bind_eq_some_iff.mp hy
  rw [h.inboxes, Cells.get_map] at hB
  obtain ⟨S, hS, rfl⟩ := Option.map_eq_some_iff.mp hB
  refine psGet_isSome_iff.mpr ⟨by rw [hS]; rfl, ?_⟩
  have hlen : S.inbox.waiting.length = S.q.waiting := by
    rw [S.q.waiting_eq, ← S.q.length_ranked]
    rfl
  cases hl : S.inbox.waiting with
  | nil =>
    left
    intro hlt
    simp only [hl, if_pos hlt, reduceCtorEq] at hy
  | cons e l =>
    right
    refine ⟨l.length, ?_⟩
    rw [hl, List.length_cons] at hlen
    rw [psWaiting, hS, hlen]
    rfl

/-- A call that a client is entitled to returns, if the exchange has an answer. -/
theorem returns {c : Client Q} (h : Abstracts c.bus x) (hok : c.bus.Ok) (hp : c.bus.PrioritiesOk)
    (hl : op.Legal c) (hprio : PriorityOk c.bus op) (hspare : c.bus.Spare c.held (op.references c.bus))
    (hx : (x.step (OrderedPsQueue.rank Q) op).isSome) : ∃ r s', PubSub.step c.bus op = some (r, s') := by
  cases op
  case get su timeout =>
    obtain ⟨y, hy⟩ := Option.isSome_iff_exists.mp (h.get_isSome (Option.isSome_map .. ▸ hx))
    exact ⟨_, _, Option.map_eq_some_iff.mpr ⟨y, hy, rfl⟩⟩
  case call msg timeout =>
    obtain ⟨hheld, m, hm, ht⟩ := hl
    obtain ⟨t, ht⟩ := Option.isSome_iff_exists.mp ht
    rw [Op.references_call hm ht] at hspare
    obtain ⟨s₁, s₂, s₃, su, n, hsent⟩ := psCall_sent hok hp hm ht hheld hspare
    obtain ⟨ms, hms, hs₁⟩ := hsent.counter
    obtain ⟨x₃, h₃, hcall⟩ := h.call_sent hok hms hs₁ hsent.new hsent.publish
    obtain ⟨y, hy⟩ := Option.isSome_iff_exists.mp hx
    obtain ⟨y, hy, -⟩ := Option.map_eq_some_iff.mp hy
    rw [hcall] at hy
    obtain ⟨y, hy, -⟩ := Option.bind_eq_some_iff.mp hy
    have hget : n = 0 ∨ (psGet s₃ su timeout).isSome := by
      by_cases hn : n = 0
      · exact .inl hn
      · rw [if_neg hn] at hy
        exact .inr (h₃.get_isSome (by rw [hy]; rfl))
    obtain ⟨ret, s', hs, -⟩ := hsent.returns hget
    exact ⟨_, _, Option.map_eq_some_iff.mpr ⟨_, hs, rfl⟩⟩
  case waitOne topic timeout =>
    have hspare : c.bus.Spare c.held (0 + replayCount c.bus.topicMap [(topic, none)]) := by
      rw [Nat.zero_add]
      exact hspare
    obtain ⟨su, s₁, hnew, h₁⟩ := psNewSubscriber_spare 1 (some [topic]) hok hspare
    obtain ⟨x₁, ha₁, hwait⟩ := h.waitOne_sent hok hnew
    obtain ⟨y, hy⟩ := Option.isSome_iff_exists.mp hx
    obtain ⟨y, hy, -⟩ := Option.map_eq_some_iff.mp hy
    rw [hwait] at hy
    obtain ⟨y, hy, -⟩ := Option.bind_eq_some_iff.mp hy
    obtain ⟨⟨ret, s₂⟩, hget⟩ := Option.isSome_iff_exists.mp (ha₁.get_isSome (by rw [hy]; rfl))
    obtain ⟨s', hs, -⟩ := psWaitOne_of_get (psNewSubscriber_quiet hok hnew).ok h₁ hnew hget
    exact ⟨_, _, Option.map_eq_some_iff.mpr ⟨_, hs, rfl⟩⟩
  all_goals
    obtain ⟨r, s', hs, -⟩ := hl.returns trivial hok hp hprio hspare
    exact ⟨r, s', hs⟩

end Abstracts

/-- Every run of the bus is a run of the exchange, with the same results. -/
theorem refines_exchange {h : List Label} {s : Bus Q} (hr : Bus.init.Reaches h s) :
    ∃ x, Exchange.start.Reaches (OrderedPsQueue.rank Q) h x ∧ Abstracts s x := by
  obtain ⟨x, hx, -, ha⟩ := hr.simulated (R := fun s x => s.Ok ∧ Abstracts s x) ⟨init_ok, .start⟩
    fun s e s' x hR hs => by
      obtain ⟨x', hx', h'⟩ := hR.2.step hR.1 hs
      exact ⟨x', hx', (step_spec hR.1 hs).ok, h'⟩
  exact ⟨x, hx, ha⟩

/-- A subscriber of two topics, one with a sticky message, that reads what there is. -/
theorem refines_exchange_reader : ∃ (h : List Label) (s : Bus Bucket.Queue) (x : Exchange),
    h = [(.newMsg (some "a".toList) 0x801 .nil, .msg (some 0)), (.publish (some 0), .int 0),
      (.newSubscriber 2 (some ["a".toList, "b".toList]), .subscriber 0),
      (.newMsg (some "b.c".toList) 0x1 .nil, .msg (some 1)), (.publish (some 1), .int 1),
      (.get 0 0, .msg (some 0)), (.get 0 0, .msg (some 1)), (.get 0 0, .msg none)] ∧
    Bus.init.Reaches h s ∧ Exchange.start.Reaches UInt8.toNat h x ∧ Abstracts s x := by
  have hcalls : (exec (step (Q := Bucket.Queue)) [.newMsg (some "a".toList) 0x801 .nil,
      .publish (some 0), .newSubscriber 2 (some ["a".toList, "b".toList]),
      .newMsg (some "b.c".toList) 0x1 .nil, .publish (some 1), .get 0 0, .get 0 0, .get 0 0]
      Bus.init).map Prod.fst = some [.msg (some 0), .int 0, .subscriber 0, .msg (some 1), .int 1,
        .msg (some 0), .msg (some 1), .msg none] := by
    decide +kernel
  obtain ⟨⟨rs, s⟩, hexec, rfl⟩ := Option.map_eq_some_iff.mp hcalls
  have hr := run_of_exec hexec
  obtain ⟨x, hx, h'⟩ := refines_exchange hr
  exact ⟨_, s, x, rfl, hr, hx, h'⟩

namespace Client

/-- In every run with priorities of one digit and without a counter that wrapped, and with
room in the counters for one more call: the bus answers a call that the client is entitled
to exactly as the exchange does. -/
theorem answers_as_exchange {h : List Label} {c : Client Q}
    (hr : Run (fun c e c' => c.step e.1 = some (e.2, c') ∧ PriorityOk c.bus e.1) Client.start h c)
    (hw : c.bus.messages.refWrap = false) :
    ∃ x, Exchange.start.Reaches (OrderedPsQueue.rank Q) h x ∧ Abstracts c.bus x ∧
      ∀ op r, PriorityOk c.bus op → op.Legal c →
        (∀ i, c.bus.messages.refs i + op.references c.bus < 2 ^ 32) →
        ((∃ c', c.step op = some (r, c')) ↔
          ∃ x', x.step (OrderedPsQueue.rank Q) op = some (r, x')) := by
  obtain ⟨ha, hp⟩ := accounted_priorities hr
  obtain ⟨x, hx, -, h'⟩ := hr.simulated (R := fun c x => c.bus.Ok ∧ Abstracts c.bus x)
    ⟨init_ok, .start⟩ fun c e c' x hR hs => by
      obtain ⟨hs, -⟩ := step_eq_some hs.1
      obtain ⟨x', hx', h'⟩ := hR.2.step hR.1 hs
      exact ⟨x', hx', (step_spec hR.1 hs).ok, h'⟩
  refine ⟨x, hx, h', fun op r hprio hl hroom => ⟨?_, ?_⟩⟩
  · rintro ⟨c', hc⟩
    obtain ⟨x', hx', -⟩ := h'.step ha.ok (step_eq_some hc).1
    exact ⟨x', hx'⟩
  · rintro ⟨x', hx'⟩
    have hspare : c.bus.Spare c.held (op.references c.bus) := by
      refine ⟨ha.refOk, hw, fun i => ?_⟩
      rw [← (ha.refOk hw i).1]
      exact hroom i
    obtain ⟨r', s', hs⟩ := h'.returns ha.ok hp hl hprio hspare (by rw [hx']; rfl)
    obtain ⟨x'', hx'', -⟩ := h'.step ha.ok hs
    obtain ⟨rfl, -⟩ := Prod.mk.inj (Option.some.inj (hx'.symm.trans hx''))
    obtain ⟨c', hc, -⟩ := step_of_legal hl hs
    exact ⟨c', hc⟩

/-- A wait without a deadline, for a sticky message that is there. -/
theorem answers_as_exchange_waitOne : ∃ (c : Client Bucket.Queue) (x : Exchange),
    Exchange.start.Reaches UInt8.toNat
      [(.newMsg (some "a.b".toList) 0x801 .nil, .msg (some 0)), (.publish (some 0), .int 0)] x ∧
    Abstracts c.bus x ∧
    (∃ c', c.step (.waitOne "a.b".toList (-1)) = some (.msg (some 0), c')) ∧
    ∃ x', x.step UInt8.toNat (.waitOne "a.b".toList (-1)) = some (.msg (some 0), x') := by
  have hcalls : (exec (Client.step (Q := Bucket.Queue))
      [.newMsg (some "a.b".toList) 0x801 .nil, .publish (some 0)] Client.start).map (fun x =>
        (x.1, !x.2.bus.messages.refWrap && x.2.bus.messages.cells.next = 1 &&
          x.2.bus.messages.refs 0 = 1 &&
          replayCount x.2.bus.topicMap [("a.b".toList, none)] = 1 &&
          (x.2.step (.waitOne "a.b".toList (-1))).map Prod.fst = some (.msg (some 0)))) =
      some ([.msg (some 0), .int 0], true) := by
    decide +kernel
  obtain ⟨⟨rs, c⟩, hexec, hfacts⟩ := Option.map_eq_some_iff.mp hcalls
  simp only [Prod.mk.injEq, Bool.and_eq_true, decide_eq_true_eq, Bool.not_eq_true'] at hfacts
  obtain ⟨rfl, ⟨⟨⟨hw, hnext⟩, hrefs⟩, hsticky⟩, hwait⟩ := hfacts
  have hrun := run_of_exec_all (P := fun c op => PriorityOk c.bus op) hexec (by simp [PriorityOk])
  obtain ⟨⟨r, c'⟩, hc, hret⟩ := Option.map_eq_some_iff.mp hwait
  obtain rfl : r = .msg (some 0) := hret
  obtain ⟨x, hx, h', hall⟩ := answers_as_exchange hrun hw
  refine ⟨c, x, hx, h', ⟨c', hc⟩,
    (hall (.waitOne "a.b".toList (-1)) _ trivial trivial fun i => ?_).mp ⟨c', hc⟩⟩
  have hone : (Op.waitOne "a.b".toList (-1)).references c.bus = 1 :=
    (Nat.add_zero _).trans hsticky
  have := Messages.refs_le_one hnext hrefs i
  omega

end Client

end PubSub
