import PubSub.Bus.Api
import PubSub.Lib.LastWrite
import PubSub.Queue.Bucket

/-! The sticky messages as a store written by publishes and by `ps_clean_sticky`:
what it holds is decided by the history, and by nothing else that clients do. -/

namespace PubSub

open Lib Bus

variable {Q : Type → Type} [PsQueue Q] [LawfulPsQueue Q]

/-- A call that writes to the store: a publish, with the topic and the sticky flag
that the message had, or a clean-up. -/
inductive StickyEvent where
  | publish (msg : MsgId) (topic : Str) (sticky : Bool)
  | clean (pre : Str)
  deriving DecidableEq

/-- What an event writes at the topic `t`. -/
def StickyEvent.writes : StickyEvent → Str → Option (Option MsgId)
  | .publish msg topic sticky, t =>
    if t = topic then some (if sticky then some msg else none) else none
  | .clean pre, t => if inSubtree pre t then some none else none

/-- The publish of `msg` in the state `s`. -/
def publishEvent (s : Bus Q) (msg : MsgId) : Option StickyEvent := do
  let m ← s.messages.cells.get msg
  let topic ← m.topic
  some (.publish msg (cutFlags topic) m.sticky)

/-- The event that a call is. -/
def stickyEvent (s : Bus Q) : Op → Option StickyEvent
  | .publish msg => msg.bind (publishEvent s)
  | .call msg _ => publishEvent s msg
  | .cleanSticky pre => some (.clean pre)
  | _ => none

/-- What the store holds at `t` after the event `e`, where `v` was. -/
def afterEvent (e : Option StickyEvent) (t : Str) (v : Option MsgId) : Option MsgId :=
  (e.bind fun e => e.writes t).getD v

section Step
variable {s s' : Bus Q} {op : Op} {r : Ret}

theorem publishEvent_of_get {msg : MsgId} {m : PsMsg} {topic : Str}
    (hm : s.messages.cells.get msg = some m) (ht : m.topic = some topic) :
    publishEvent s msg = some (.publish msg (cutFlags topic) m.sticky) := by
  rw [publishEvent, hm, Option.bind_eq_bind, Option.bind_some, ht]
  rfl

theorem Published.stickyAt_eq {msg : MsgId} {n : ℕ} {m : PsMsg} {topic : Str} {as : List Attempt}
    {s₀ s₁ : Bus Q} (h : Published s msg n s' m topic as s₀ s₁) (hok : s.Ok) (t : Str) :
    PubSub.stickyAt s'.topicMap t =
      afterEvent (publishEvent s msg) t (PubSub.stickyAt s.topicMap t) := by
  obtain ⟨msgTopic, htopic, rfl⟩ := h.topic_eq
  rw [h.stickyAt hok, publishEvent_of_get h.get htopic, Function.update_apply]
  simp only [afterEvent, StickyEvent.writes, Option.bind_some]
  split
  · rfl
  · rfl

/-- The publish inside a call is a publish of the message as the caller passed it. -/
theorem Called.stickyAt_eq {msg : MsgId} {timeout : Int64} {ret : Option MsgId}
    {s₁ s₂ s₃ s₄ : Bus Q} {su : SubId} {n : ℕ}
    (h : Called s msg timeout ret s' s₁ s₂ s₃ s₄ su n) (hok : s.Ok) (t : Str) :
    stickyAt s'.topicMap t = afterEvent (publishEvent s msg) t (stickyAt s.topicMap t) := by
  obtain ⟨hok₁, hok₂, hok₃, hok₄, -⟩ := h.oks hok
  obtain ⟨ms, hms, rfl⟩ := h.counter
  obtain ⟨m, hm, rfl⟩ := psMsgSetRtopic_eq_some hms
  have hnew := psNewSubscriber_quiet hok₁ h.new
  obtain ⟨m₂, topic, as, t₀, t₁, hp⟩ := psPublish_published hok₂.names hok₂.alive h.publish
  obtain ⟨m₁, hm₁, hm₂⟩ := hnew.content.content msg m₂ hp.get
  rw [Cells.get_modify_self, hm, Option.map_some] at hm₁
  cases hm₁
  obtain ⟨msgTopic, htopic, rfl⟩ := hp.topic_eq
  have hevent : publishEvent s₂ msg = publishEvent s msg := by
    have htopic' : m.topic = some msgTopic := by rw [← htopic, hm₂]
    rw [publishEvent_of_get hp.get htopic, publishEvent_of_get hm htopic', hm₂]
    rfl
  have hget : stickyAt s₄.topicMap = stickyAt s₃.topicMap := by
    rcases h.get with ⟨-, -, rfl⟩ | ⟨-, hget⟩
    · rfl
    · rw [(psGet_ok hok₃ hget).2.2.1]
  rw [(psFreeSubscriber_quiet hok₄ h.free).sticky, hget, hp.stickyAt_eq hok₂, hevent, hnew.sticky]

/-- Every call acts on the store as its event says. -/
theorem step_stickyAt (hok : s.Ok) (h : step s op = some (r, s')) (t : Str) :
    stickyAt s'.topicMap t = afterEvent (stickyEvent s op) t (stickyAt s.topicMap t) := by
  cases op
  all_goals
    obtain ⟨x, hx, heq⟩ := Option.map_eq_some_iff.mp h
    cases heq
  case newSubscriber => rw [(psNewSubscriber_quiet hok hx).sticky]; rfl
  case freeSubscriber => rw [(psFreeSubscriber_quiet hok hx).sticky]; rfl
  case setNewMsgCb =>
    obtain ⟨S, callbacks, -, rfl⟩ := psSetNewMsgCb_eq_some hx
    rfl
  case setNonEmptyCb =>
    obtain ⟨S, callbacks, -, rfl⟩ := psSetNonEmptyCb_eq_some hx
    rfl
  case get => rw [(psGet_sameShape hx).topicMap]; rfl
  case flush =>
    obtain ⟨S, q, ms, hS, hf⟩ := psFlush_flushed hx
    rw [(hf.sameShape hS).topicMap]
    rfl
  case overflow =>
    obtain ⟨S, -, -, hs⟩ := psOverflow_eq_some hx
    rw [hs]
    rfl
  case subscribe => rw [(psSubscribeFlags_quiet hok hx).1.sticky]; rfl
  case subscribeFlags => rw [(psSubscribeFlags_quiet hok hx).1.sticky]; rfl
  case subscribeMany => rw [(psSubscribeMany_quiet hok hx).1.sticky]; rfl
  case unsubscribe => rw [(psUnsubscribe_quiet hok hx).1.sticky]; rfl
  case unsubscribeMany => rw [(psUnsubscribeMany_quiet hok hx).1.sticky]; rfl
  case unsubscribeAll => rw [(psUnsubscribeAll_quiet hok hx).1.sticky]; rfl
  case publish msg =>
    cases msg with
    | none =>
      cases hx
      rfl
    | some msg =>
      obtain ⟨n, s'⟩ := x
      obtain ⟨m, topic, as, s₀, s₁, hp⟩ := psPublish_published hok.names hok.alive hx
      exact hp.stickyAt_eq hok t
  case cleanSticky pre =>
    have hc := psCleanSticky_cleaned hok.names hok.alive hx
    apply Option.ext
    intro msg
    rw [hc.sticky]
    simp only [afterEvent, stickyEvent, StickyEvent.writes, Option.bind_some]
    by_cases hin : inSubtree pre t = true
    · simp [hin]
    · simp [hin]
  case call msg timeout =>
    obtain ⟨ret, s'⟩ := x
    obtain ⟨s₁, s₂, s₃, s₄, su, n, hc⟩ := psCall_called hx
    exact hc.stickyAt_eq hok t
  case waitOne topic timeout =>
    obtain ⟨ret, s'⟩ := x
    obtain ⟨su, s₁, s₂, hnew, hget, hfree⟩ := psWaitOne_eq_some hx
    have hq := psNewSubscriber_quiet hok hnew
    have hget' := psGet_ok hq.ok hget
    rw [(psFreeSubscriber_quiet hget'.1 hfree).sticky, hget'.2.2.1, hq.sticky]
    rfl
  all_goals rfl

end Step

/-! ### Histories -/

/-- A call with its result and the event that it is. -/
abbrev Logged := Op × Ret × Option StickyEvent

/-- One call, with its event. -/
def logStep (s : Bus Q) (op : Op) : Option ((Ret × Option StickyEvent) × Bus Q) :=
  (step s op).map fun (r, s') => ((r, stickyEvent s op), s')

/-- The runs of the program, with their events. -/
abbrev Bus.Logs (s : Bus Q) (h : List Logged) (s' : Bus Q) : Prop :=
  Run (fun s e s' => logStep s e.1 = some (e.2, s')) s h s'

theorem logStep_eq_some {s s' : Bus Q} {e : Logged} :
    logStep s e.1 = some (e.2, s') ↔ step s e.1 = some (e.2.1, s') ∧ e.2.2 = stickyEvent s e.1 := by
  obtain ⟨op, r, ev⟩ := e
  simp only [logStep, Option.map_eq_some_iff, Prod.mk.injEq]
  constructor
  · rintro ⟨⟨r', s''⟩, hs, ⟨rfl, rfl⟩, rfl⟩
    exact ⟨hs, rfl⟩
  · rintro ⟨hs, rfl⟩
    exact ⟨(r, s'), hs, ⟨rfl, rfl⟩, rfl⟩

/-- The events of a history, oldest first. -/
def events (h : List Logged) : List StickyEvent := h.filterMap fun e => e.2.2

section Runs
variable {h : List Logged} {s : Bus Q}

theorem Bus.Logs.ok (hr : Bus.init.Logs h s) : s.Ok :=
  hr.invariant init_ok fun _ _ _ hok hs => (step_spec hok (logStep_eq_some.mp hs).1).ok

/-- Every run has a log. -/
theorem Bus.Reaches.log {s s' : Bus Q} {h : List Label} (hr : s.Reaches h s') :
    ∃ log : List Logged, s.Logs log s' ∧ log.map (fun e => (e.1, e.2.1)) = h := by
  induction hr with
  | nil => exact ⟨[], .nil, rfl⟩
  | @snoc h t u e _ hs ih =>
    obtain ⟨log, hlog, rfl⟩ := ih
    exact ⟨log ++ [(e.1, e.2, stickyEvent t e.1)], hlog.snoc (logStep_eq_some.mpr ⟨hs, rfl⟩), by simp⟩

theorem stickyAt_eq_replay (hr : Bus.init.Logs h s) (t : Str) :
    stickyAt s.topicMap t = replay StickyEvent.writes t (events h) := by
  refine Run.history (P := fun h s => stickyAt s.topicMap t = replay StickyEvent.writes t (events h))
    rfl (fun h s e s' hr ih hs => ?_) hr
  obtain ⟨hs, hev⟩ := logStep_eq_some.mp hs
  have hevents : events (h ++ [e]) = events h ++ e.2.2.toList := by
    cases he : e.2.2 <;> simp [events, he]
  rw [step_stickyAt (Bus.Logs.ok hr) hs, ih, ← hev, hevents]
  cases e.2.2 with
  | none => rw [Option.toList_none, List.append_nil]; rfl
  | some ev => rw [Option.toList_some, replay_snoc]; rfl

end Runs

theorem writes_eq_some {e : StickyEvent} {t : Str} {m : MsgId} :
    e.writes t = some (some m) ↔ e = .publish m t true := by
  cases e with
  | publish msg topic sticky =>
    simp only [StickyEvent.writes, StickyEvent.publish.injEq]
    split
    case isTrue htopic => cases sticky <;> simp [htopic, eq_comm]
    case isFalse htopic => simp [Ne.symm htopic]
  | clean pre =>
    simp only [StickyEvent.writes, reduceCtorEq, iff_false]
    split <;> simp

theorem writes_eq_none {e : StickyEvent} {t : Str} :
    e.writes t = none ↔ (∀ x b, e ≠ .publish x t b) ∧
      ∀ p, e = .clean p → ¬ (p = t ∨ p = [] ∨ p ++ ['.'] <+: t) := by
  cases e with
  | publish msg topic sticky =>
    simp only [StickyEvent.writes]
    split
    case isTrue htopic => simp [htopic]
    case isFalse htopic => simp [Ne.symm htopic]
  | clean pre =>
    have hin := inSubtree_iff (p := pre) (t := t)
    rw [IsAncestor] at hin
    simp only [StickyEvent.writes]
    split
    case isTrue h =>
      constructor
      · rintro ⟨⟩
      · rintro ⟨-, hp⟩
        exact absurd (hin.mp h) (hp pre rfl)
    case isFalse h =>
      refine iff_of_true rfl ⟨?_, ?_⟩
      · rintro x b ⟨⟩
      · rintro p ⟨⟩ hanc
        exact h (hin.mpr hanc)

/-- In every reachable state the sticky message of `t` is `m` if and only if the
last publish on `t` was of `m`, sticky then, and no clean-up of `t` followed. A
call that is neither a publish on `t` nor a clean-up of it leaves it alone. -/
theorem stickyAt_iff_last_publish {h : List Logged} {s : Bus Q} (hr : Bus.init.Logs h s)
    (t : Str) :
    (∀ m, stickyAt s.topicMap t = some m ↔ ∃ pre post,
      events h = pre ++ .publish m t true :: post ∧ ∀ e ∈ post, (∀ x b, e ≠ .publish x t b) ∧
        ∀ p, e = .clean p → ¬ (p = t ∨ p = [] ∨ p ++ ['.'] <+: t)) ∧
    (∀ op r s', step s op = some (r, s') → (∀ e ∈ stickyEvent s op, (∀ x b, e ≠ .publish x t b) ∧
        ∀ p, e = .clean p → ¬ (p = t ∨ p = [] ∨ p ++ ['.'] <+: t)) →
      stickyAt s'.topicMap t = stickyAt s.topicMap t) := by
  constructor
  · intro m
    rw [stickyAt_eq_replay hr, replay_eq_some]
    simp only [writes_eq_some, writes_eq_none]
    constructor
    · rintro ⟨pre, e, post, hev, rfl, hpost⟩
      exact ⟨pre, post, hev, hpost⟩
    · rintro ⟨pre, post, hev, hpost⟩
      exact ⟨pre, _, post, hev, rfl, hpost⟩
  · intro op r s' hs hne
    rw [step_stickyAt (Bus.Logs.ok hr) hs, afterEvent]
    cases hev : stickyEvent s op with
    | none => rfl
    | some e =>
      rw [Option.bind_some, writes_eq_none.mpr (hne e hev)]
      rfl

/-- A publish on a parent, a subscription and a clean-up of another subtree leave
the sticky message of `a.b`. -/
theorem stickyAt_iff_last_publish_kept : ∃ s : Bus Bucket.Queue,
    (exec logStep [.newMsg (some "a.b c".toList) 0x801 .nil, .publish (some 0),
      .newMsg (some "a".toList) 0x800 .nil, .publish (some 1),
      .newSubscriber 1 (some ["a.b".toList]), .cleanSticky "a.".toList] Bus.init).map
      (fun x => x.2) = some s ∧
    stickyAt s.topicMap "a.b".toList = some 0 := by
  refine ⟨_, rfl, ?_⟩
  have hrun := run_of_exec (f := logStep (Q := Bucket.Queue)) (s := Bus.init)
    (l := [.newMsg (some "a.b c".toList) 0x801 .nil, .publish (some 0),
      .newMsg (some "a".toList) 0x800 .nil, .publish (some 1),
      .newSubscriber 1 (some ["a.b".toList]), .cleanSticky "a.".toList]) rfl
  refine ((stickyAt_iff_last_publish hrun "a.b".toList).1 0).mpr
    ⟨[], [.publish 1 "a".toList false, .clean "a.".toList], rfl, fun e he => writes_eq_none.mp ?_⟩
  revert e
  decide

end PubSub
