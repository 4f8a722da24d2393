import PubSub.Bus.Lifetime

/-! The interface of `pubsub.h` as one step function, and what every step keeps. -/

namespace PubSub

open Lib Bus

variable {Q : Type → Type} [PsQueue Q] [LawfulPsQueue Q]

/-- A call, with its arguments. -/
inductive Op where
  | newMsg (topic : Option Str) (flags : UInt32) (args : PsValue)
  | dupMsg (msg : MsgId)
  | refMsg (msg : Option MsgId)
  | unrefMsg (msg : Option MsgId)
  | msgSetTopic (msg : MsgId) (topic : Option Str)
  | msgSetRtopic (msg : MsgId) (rtopic : Option Str)
  | msgSetValue (msg : MsgId) (flags : UInt32) (args : PsValue)
  | newSubscriber (queueSize : ℕ) (subs : Option (List Str))
  | freeSubscriber (su : SubId)
  | setNewMsgCb (su : SubId) (cb : Option Callback)
  | setNonEmptyCb (su : SubId) (cb : Option Callback)
  | get (su : SubId) (timeout : Int64)
  | flush (su : SubId)
  | waiting (su : SubId)
  | overflow (su : SubId)
  | numSubs (su : SubId)
  | subscribe (su : SubId) (topic : Str)
  | subscribeFlags (su : SubId) (topic : Str) (flags : Option PsSubFlags)
  | subscribeMany (su : SubId) (subs : Option (List Str))
  | unsubscribe (su : SubId) (topic : Str)
  | unsubscribeMany (su : SubId) (subs : Option (List Str))
  | unsubscribeAll (su : SubId)
  | publish (msg : Option MsgId)
  | cleanSticky (pre : Str)
  | subsCount (topic : Option Str)
  | call (msg : MsgId) (timeout : Int64)
  | waitOne (topic : Str) (timeout : Int64)

/-- The result of a call. -/
inductive Ret where
  | unit
  | int (n : ℤ)
  | msg (m : Option MsgId)
  | subscriber (su : SubId)
  deriving DecidableEq

/-- One call. -/
def step (s : Bus Q) : Op → Option (Ret × Bus Q)
  | .newMsg topic flags args =>
    (psNewMsg s.messages topic flags args).map fun (m, ms) => (.msg m, { s with messages := ms })
  | .dupMsg msg =>
    (psDupMsg s.messages msg).map fun (m, ms) => (.msg (some m), { s with messages := ms })
  | .refMsg msg => (psRefMsg s.messages msg).map fun ms => (.msg msg, { s with messages := ms })
  | .unrefMsg msg => (psUnrefMsg s.messages msg).map fun ms => (.unit, { s with messages := ms })
  | .msgSetTopic msg topic =>
    (psMsgSetTopic s.messages msg topic).map fun ms => (.unit, { s with messages := ms })
  | .msgSetRtopic msg rtopic =>
    (psMsgSetRtopic s.messages msg rtopic).map fun ms => (.unit, { s with messages := ms })
  | .msgSetValue msg flags args =>
    (psMsgSetValue s.messages msg flags args).map fun ms => (.unit, { s with messages := ms })
  | .newSubscriber queueSize subs =>
    (psNewSubscriber s queueSize subs).map fun (su, s) => (.subscriber su, s)
  | .freeSubscriber su => (psFreeSubscriber s su).map fun s => (.unit, s)
  | .setNewMsgCb su cb => (psSetNewMsgCb s su cb).map fun s => (.unit, s)
  | .setNonEmptyCb su cb => (psSetNonEmptyCb s su cb).map fun s => (.unit, s)
  | .get su timeout => (psGet s su timeout).map fun (m, s) => (.msg m, s)
  | .flush su => (psFlush s su).map fun (n, s) => (.int n, s)
  | .waiting su => (psWaiting s su).map fun n => (.int n, s)
  | .overflow su => (psOverflow s su).map fun (n, s) => (.int n, s)
  | .numSubs su => (psNumSubs s su).map fun n => (.int n, s)
  | .subscribe su topic => (psSubscribe s su topic).map fun (r, s) => (.int r, s)
  | .subscribeFlags su topic flags =>
    (psSubscribeFlags s su topic flags).map fun (r, s) => (.int r, s)
  | .subscribeMany su subs => (psSubscribeMany s su subs).map fun (n, s) => (.int n, s)
  | .unsubscribe su topic => (psUnsubscribe s su topic).map fun (r, s) => (.int r, s)
  | .unsubscribeMany su subs => (psUnsubscribeMany s su subs).map fun (n, s) => (.int n, s)
  | .unsubscribeAll su => (psUnsubscribeAll s su).map fun (n, s) => (.int n, s)
  | .publish msg => (psPublish s msg).map fun (n, s) => (.int n, s)
  | .cleanSticky pre => (psCleanSticky s pre).map fun s => (.unit, s)
  | .subsCount topic => (psSubsCount s topic).map fun n => (.int n, s)
  | .call msg timeout => (psCall s msg timeout).map fun (m, s) => (.msg m, s)
  | .waitOne topic timeout => (psWaitOne s topic timeout).map fun (m, s) => (.msg m, s)

/-- The reference that the caller gives up. -/
def Op.gives : Op → Option MsgId
  | .unrefMsg msg => msg
  | .publish msg => msg
  | .call msg _ => some msg
  | _ => none

/-- The reference that the caller gets: every message that a call returns is one. -/
def Ret.gets : Ret → Option MsgId
  | .msg m => m
  | _ => none

/-- What every call keeps. -/
structure StepSpec (s : Bus Q) (op : Op) (r : Ret) (s' : Bus Q) : Prop where
  ok : s'.Ok
  subStatOk : s.SubStatOk → s'.SubStatOk
  refOk : ∀ held, s.RefOk (held + ownRef op.gives) → s'.RefOk (held + ownRef r.gets)
  noWrap : s'.messages.refWrap = false → s.messages.refWrap = false

section Spec
variable {s s' : Bus Q} {op : Op} {r : Ret}

theorem StepSpec.of_quiet (hg : op.gives = none) (hr : r.gets = none) (hq : Quiet s s')
    (hs : s.SubStatOk → s'.SubStatOk) : StepSpec s op r s' := by
  refine ⟨hq.ok, hs, fun held h => ?_, hq.content.wrap⟩
  rw [hg, ownRef_none, add_zero] at h
  rw [hr, ownRef_none, add_zero]
  exact hq.refOk held h

theorem StepSpec.of_messages {ms : Messages} (hok : s.Ok) (hs : s' = { s with messages := ms })
    (hstat : s.messages.StatOk → ms.StatOk)
    (hr : ∀ total, s.messages.RefOk (total + ownRef op.gives) → ms.RefOk (total + ownRef r.gets))
    (hw : ms.refWrap = false → s.messages.refWrap = false) : StepSpec s op r s' := by
  subst hs
  refine ⟨⟨hok.names, hok.alive, hok.links, hstat hok.statOk⟩, id, fun held h => ?_, hw⟩
  rw [Bus.RefOk, Bus.account, ← add_assoc] at h ⊢
  exact hr _ h

theorem psMsgSetTopic_eq_some {ms ms' : Messages} {msg : MsgId} {topic : Option Str}
    (h : psMsgSetTopic ms msg topic = some ms') : ∃ m, ms.cells.get msg = some m ∧
      ms' = { ms with cells := ms.cells.modify msg fun _ => { m with topic := topic } } := by
  simp only [psMsgSetTopic, Option.bind_eq_bind, Option.bind_eq_some_iff, Option.some.injEq] at h
  obtain ⟨m, hm, rfl⟩ := h
  exact ⟨m, hm, rfl⟩

theorem psMsgSetValue_eq_some {ms ms' : Messages} {msg : MsgId} {flags : UInt32} {args : PsValue}
    (h : psMsgSetValue ms msg flags args = some ms') : ∃ m m', ms.cells.get msg = some m ∧
      psMsgSetVvalue m flags args = some m' ∧
      ms' = { ms with cells := ms.cells.modify msg fun _ => m' } := by
  simp only [psMsgSetValue, Option.bind_eq_bind, Option.bind_eq_some_iff, Option.some.injEq] at h
  obtain ⟨m, hm, m', hm', rfl⟩ := h
  exact ⟨m, m', hm, hm', rfl⟩

theorem StepSpec.of_modify {msg : MsgId} {m k : PsMsg} (hok : s.Ok) (hg : op.gives = none)
    (hr : r.gets = none) (hm : s.messages.cells.get msg = some m) (href : k.ref = m.ref)
    (hs : s' = { s with
      messages := { s.messages with cells := s.messages.cells.modify msg fun _ => k } }) :
    StepSpec s op r s' := by
  refine .of_messages hok hs (fun h => ?_) (fun total h => ?_) id
  · simpa [Messages.StatOk] using h
  · rw [hg, ownRef_none, add_zero] at h
    rw [hr, ownRef_none, add_zero]
    exact refOk_modify hm href h

theorem StepSpec.of_modifySubscriber {su : SubId} {S N : PsSubscriber Q} (hok : s.Ok)
    (hg : op.gives = none) (hr : r.gets = none) (hS : s.subscribers.get su = some S)
    (hq : N.q = S.q) (hsubs : N.subs = S.subs) {callbacks : List CallbackCall}
    (hs : s' = { s with
      subscribers := s.subscribers.modify su fun _ => N, callbacks := callbacks }) :
    StepSpec s op r s' := by
  subst hs
  have hlinks := (modifySubscriber_sameShape hS hsubs).subsOf
  have hsize : (s.subscribers.modify su fun _ => N).size = s.subscribers.size :=
    Cells.size_modify _ _ _
  refine .of_quiet hg hr ⟨⟨hok.names, hok.alive, ?_, hok.statOk⟩, rfl, fun held h => ?_, .refl _, rfl⟩
    fun h => ?_
  · simp only [Bus.modifySubscriber] at hlinks
    rw [hlinks]
    exact hok.links
  · exact modifySubscriber_refOk hS hq h
  · rw [Bus.SubStatOk, hsize]
    exact h

theorem psNewMsg_wrap {ms ms' : Messages} {topic : Option Str} {flags : UInt32} {args : PsValue}
    {msg : Option MsgId} (h : psNewMsg ms topic flags args = some (msg, ms')) :
    ms'.refWrap = ms.refWrap := by
  rcases psNewMsg_cases h with ⟨-, -, rfl⟩ | ⟨m, -, -, -, rfl⟩ <;> rfl

theorem psSetNewMsgCb_eq_some {su : SubId} {cb : Option Callback}
    (h : psSetNewMsgCb s su cb = some s') : ∃ S callbacks, s.subscribers.get su = some S ∧
      s' = { s with
        subscribers := s.subscribers.modify su fun _ => { S with newMsgCb := cb }
        callbacks := callbacks } := by
  obtain ⟨S, hS, heq⟩ := Option.bind_eq_some_iff.mp h
  cases heq
  exact ⟨S, _, hS, rfl⟩

theorem psSetNonEmptyCb_eq_some {su : SubId} {cb : Option Callback}
    (h : psSetNonEmptyCb s su cb = some s') : ∃ S callbacks, s.subscribers.get su = some S ∧
      s' = { s with
        subscribers := s.subscribers.modify su fun _ => { S with nonEmptyCb := cb }
        callbacks := callbacks } := by
  obtain ⟨S, hS, heq⟩ := Option.bind_eq_some_iff.mp h
  cases heq
  exact ⟨S, _, hS, rfl⟩

/-- Every call keeps the invariant and moves the references that it says it moves. -/
theorem step_spec (hok : s.Ok) (h : step s op = some (r, s')) : StepSpec s op r s' := by
  have hunit : ownRef (Ret.gets .unit) = 0 := ownRef_none
  cases op
  all_goals
    obtain ⟨x, hx, heq⟩ := Option.map_eq_some_iff.mp h
    cases heq
  case newMsg topic flags args =>
    obtain ⟨msg, ms⟩ := x
    refine .of_messages hok rfl (fun hs => ?_) (fun total hr => ?_) fun hw =>
      (psNewMsg_wrap hx).symm.trans hw
    all_goals rcases psNewMsg_cases hx with ⟨-, rfl, rfl⟩ | ⟨m, href, -, rfl, rfl⟩
    · exact hs
    · exact allocMsg_statOk hs
    · exact hr
    · exact allocMsg_refOk href (by simpa [Op.gives] using hr)
  case dupMsg orig =>
    obtain ⟨m, -, heq⟩ := psDupMsg_eq_some hx
    obtain ⟨msg, ms⟩ := x
    cases heq
    exact .of_messages hok rfl allocMsg_statOk
      (fun total hr => allocMsg_refOk rfl (by simpa [Op.gives] using hr)) id
  case refMsg msg =>
    cases msg with
    | none =>
      cases hx
      exact .of_messages hok rfl id (fun _ => id) id
    | some msg =>
      exact .of_messages hok rfl (psRefMsg_statOk hx)
        (fun total hr => psRefMsg_refOk hx (by simpa [Op.gives] using hr))
        (psRefMsg_sameContent hx).wrap
  case unrefMsg msg =>
    refine .of_messages hok rfl (psUnrefMsg_statOk hx) (fun total hr => ?_)
      (psUnrefMsg_sameContent hx).wrap
    rw [hunit, add_zero]
    exact psUnrefMsg_refOk hx hr
  case msgSetTopic msg topic =>
    obtain ⟨m, hm, rfl⟩ := psMsgSetTopic_eq_some hx
    exact .of_modify (k := { m with topic := topic }) hok rfl rfl hm rfl rfl
  case msgSetRtopic msg rtopic =>
    obtain ⟨m, hm, rfl⟩ := psMsgSetRtopic_eq_some hx
    exact .of_modify (k := { m with rtopic := rtopic }) hok rfl rfl hm rfl rfl
  case msgSetValue msg flags args =>
    obtain ⟨m, m', hm, hm', rfl⟩ := psMsgSetValue_eq_some hx
    exact .of_modify hok rfl rfl hm (psMsgSetVvalue_eq_some hm').1 rfl
  case newSubscriber queueSize subs =>
    exact .of_quiet rfl rfl (psNewSubscriber_quiet hok hx) fun hs =>
      psNewSubscriber_subStatOk hok hs hx
  case freeSubscriber su =>
    exact .of_quiet rfl rfl (psFreeSubscriber_quiet hok hx) fun hs =>
      psFreeSubscriber_subStatOk hok hs hx
  case setNewMsgCb su cb =>
    obtain ⟨S, callbacks, hS, hs⟩ := psSetNewMsgCb_eq_some hx
    exact .of_modifySubscriber (N := { S with newMsgCb := cb }) hok rfl rfl hS rfl rfl hs
  case setNonEmptyCb su cb =>
    obtain ⟨S, callbacks, hS, hs⟩ := psSetNonEmptyCb_eq_some hx
    exact .of_modifySubscriber (N := { S with nonEmptyCb := cb }) hok rfl rfl hS rfl rfl hs
  case get su timeout =>
    obtain ⟨msg, s'⟩ := x
    obtain ⟨hok', hsame, -, hms, -⟩ := psGet_ok hok hx
    refine ⟨hok', hsame.subStatOk, fun held hr => ?_, fun hw => hms ▸ hw⟩
    exact psGet_refOk hx (by simpa [Op.gives] using hr)
  case flush su =>
    obtain ⟨n, s'⟩ := x
    obtain ⟨S, q, ms, hS, hf⟩ := psFlush_flushed hx
    refine .of_quiet rfl rfl (.of_sameShape hok (hf.sameShape hS) ?_ fun held hr =>
      hf.busRefOk hS hr) fun hs => ?_
    · rw [hf.state]
      exact hf.statOk hok.statOk
    · rw [hf.state, Bus.SubStatOk]
      exact hs.trans (by rw [Cells.size_modify])
  case waiting su => exact .of_quiet rfl rfl (.refl hok) id
  case numSubs su => exact .of_quiet rfl rfl (.refl hok) id
  case subsCount topic => exact .of_quiet rfl rfl (.refl hok) id
  case overflow su =>
    obtain ⟨S, hS, -, hs⟩ := psOverflow_eq_some hx
    exact .of_modifySubscriber (N := { S with overflow := 0 }) hok rfl rfl hS rfl rfl hs
  case subscribe su topic =>
    have hq := psSubscribeFlags_quiet hok hx
    exact .of_quiet rfl rfl hq.1 hq.2.subStatOk
  case subscribeFlags su topic flags =>
    have hq := psSubscribeFlags_quiet hok hx
    exact .of_quiet rfl rfl hq.1 hq.2.subStatOk
  case subscribeMany su subs =>
    have hq := psSubscribeMany_quiet hok hx
    exact .of_quiet rfl rfl hq.1 hq.2.subStatOk
  case unsubscribe su topic =>
    have hq := psUnsubscribe_quiet hok hx
    exact .of_quiet rfl rfl hq.1 hq.2.subStatOk
  case unsubscribeMany su subs =>
    have hq := psUnsubscribeMany_quiet hok hx
    exact .of_quiet rfl rfl hq.1 hq.2.subStatOk
  case unsubscribeAll su =>
    have hq := psUnsubscribeAll_quiet hok hx
    exact .of_quiet rfl rfl hq.1 hq.2.subStatOk
  case publish msg =>
    obtain ⟨n, s'⟩ := x
    cases msg with
    | none =>
      cases hx
      exact .of_quiet rfl rfl (.refl hok) id
    | some msg =>
      obtain ⟨m, topic, as, s₀, s₁, hp⟩ := psPublish_published hok.names hok.alive hx
      refine ⟨hp.ok hok, hp.sameSubscribers.subStatOk, fun held hr => ?_, hp.content.wrap⟩
      have hnone : ownRef (Ret.gets (.int n)) = 0 := ownRef_none
      rw [hnone, add_zero]
      exact hp.refOk hok hr
  case cleanSticky pre =>
    have hc := psCleanSticky_cleaned hok.names hok.alive hx
    refine ⟨⟨hc.names, hc.alive, ?_, hc.statOk hok.statOk⟩, fun hs => ?_, fun held hr => ?_,
      hc.content.wrap⟩
    · rw [hc.entriesOf, hc.subscribers]
      exact hok.links
    · rw [Bus.SubStatOk, hc.statLiveSubscribers, hc.subscribers]
      exact hs
    · rw [hunit, add_zero]
      exact hc.refOk held (by simpa [Op.gives] using hr)
  case call msg timeout =>
    obtain ⟨ret, s'⟩ := x
    obtain ⟨s₁, s₂, s₃, s₄, su, n, hc⟩ := psCall_called hx
    exact ⟨(hc.oks hok).2.2.2.2, hc.subStatOk hok, fun held hr => hc.refOk hok hr, hc.noWrap hok⟩
  case waitOne topic timeout =>
    obtain ⟨ret, s'⟩ := x
    obtain ⟨su, s₁, s₂, hnew, hget, hfree⟩ := psWaitOne_eq_some hx
    have hq := psNewSubscriber_quiet hok hnew
    obtain ⟨hok₂, hsame, -, hms, -⟩ := psGet_ok hq.ok hget
    have hq' := psFreeSubscriber_quiet hok₂ hfree
    refine ⟨hq'.ok, fun hs => ?_, fun held hr => ?_, fun hw => ?_⟩
    · exact psFreeSubscriber_subStatOk hok₂
        (hsame.subStatOk (psNewSubscriber_subStatOk hok hs hnew)) hfree
    · exact hq'.refOk _ (psGet_refOk hget (hq.refOk _ (by simpa [Op.gives] using hr)))
    · exact hq.content.wrap (hms ▸ hq'.content.wrap hw)

/-- Only a `ps_call` counts. -/
theorem step_uuidCtr (hok : s.Ok) (hop : ∀ msg timeout, op ≠ .call msg timeout)
    (h : step s op = some (r, s')) : s'.uuidCtr = s.uuidCtr := by
  cases op
  all_goals
    obtain ⟨x, hx, heq⟩ := Option.map_eq_some_iff.mp h
    cases heq
  case newSubscriber => exact (psNewSubscriber_quiet hok hx).uuidCtr
  case freeSubscriber => exact (psFreeSubscriber_quiet hok hx).uuidCtr
  case setNewMsgCb =>
    obtain ⟨S, callbacks, -, rfl⟩ := psSetNewMsgCb_eq_some hx
    rfl
  case setNonEmptyCb =>
    obtain ⟨S, callbacks, -, rfl⟩ := psSetNonEmptyCb_eq_some hx
    rfl
  case get => exact (psGet_sameShape hx).uuidCtr
  case flush =>
    obtain ⟨S, q, ms, hS, hf⟩ := psFlush_flushed hx
    exact (hf.sameShape hS).uuidCtr
  case overflow =>
    obtain ⟨S, -, -, hs⟩ := psOverflow_eq_some hx
    rw [hs]
    rfl
  case subscribe => exact (psSubscribeFlags_quiet hok hx).1.uuidCtr
  case subscribeFlags => exact (psSubscribeFlags_quiet hok hx).1.uuidCtr
  case subscribeMany => exact (psSubscribeMany_quiet hok hx).1.uuidCtr
  case unsubscribe => exact (psUnsubscribe_quiet hok hx).1.uuidCtr
  case unsubscribeMany => exact (psUnsubscribeMany_quiet hok hx).1.uuidCtr
  case unsubscribeAll => exact (psUnsubscribeAll_quiet hok hx).1.uuidCtr
  case publish msg =>
    cases msg with
    | none =>
      cases hx
      rfl
    | some msg =>
      obtain ⟨n, s'⟩ := x
      obtain ⟨m, topic, as, s₀, s₁, hp⟩ := psPublish_published hok.names hok.alive hx
      exact hp.uuidCtr
  case cleanSticky => exact (psCleanSticky_cleaned hok.names hok.alive hx).uuidCtr
  case call msg timeout => exact absurd rfl (hop msg timeout)
  case waitOne topic timeout =>
    obtain ⟨ret, s'⟩ := x
    obtain ⟨su, s₁, s₂, hnew, hget, hfree⟩ := psWaitOne_eq_some hx
    have hq := psNewSubscriber_quiet hok hnew
    have hget' := psGet_ok hq.ok hget
    have hfree' := (psFreeSubscriber_quiet hget'.1 hfree).uuidCtr
    exact hfree'.trans (hget'.2.2.2.2.2.trans hq.uuidCtr)
  all_goals rfl

end Spec

/-! ### Runs -/

/-- A call with its result. -/
abbrev Label := Op × Ret

/-- The runs of the program under any clients. -/
abbrev Bus.Reaches (s : Bus Q) (h : List Label) (s' : Bus Q) : Prop :=
  Run (fun s e s' => step s e.1 = some (e.2, s')) s h s'

theorem init_ok : (Bus.init : Bus Q).Ok := by
  refine ⟨⟨?_, ?_⟩, ?_, ⟨?_, ?_, ?_, ?_⟩, rfl⟩
  · intro i j a b h
    cases h
  · intro i a h
    cases h
  · intro i t h
    cases h
  · exact fun _ => List.nodup_nil
  · intro su subs h
    cases h
  · intro su subs h
    cases h
  · intro tm sl h
    cases h

/-- The invariant holds in every reachable state. -/
theorem Bus.Reaches.ok {h : List Label} {s : Bus Q} (hr : Bus.init.Reaches h s) : s.Ok :=
  hr.invariant init_ok fun _ _ _ hok hs => (step_spec hok hs).ok

end PubSub
