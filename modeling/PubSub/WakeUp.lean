import PubSub.Bus.Delivery
import PubSub.Lib.Since
import PubSub.Queue.Concurrent

/-! Deliveries to one subscriber while other threads pull from its queue. A delivery
is the push and then, after any steps of the pulls, the check with its callbacks; to
set a callback is the assignment and then a check of its own. The thread that makes
them has the global lock, so only pulls come in between. With the bucket queue no
wake-up is lost: while messages wait, `non_empty_cb` has been called since the last
time that none did. -/

namespace PubSub

open Lib PsQueue LawfulPsQueue

/-- What the thread with the global lock has still to do for the subscriber. -/
inductive Locked where
  | check
  | install (kind : CallbackKind)
  deriving DecidableEq

/-- What deliveries and pulls share of a `ps_subscriber_t`. -/
structure Mailbox extends Shared Bucket.Queue MsgId where
  overflow : UInt32
  newMsgCb : Option Callback
  nonEmptyCb : Option Callback
  locked : Option Locked

/-- The steps. A pull is `take` and `lock`, as in `ThreadOp`. -/
inductive MailOp where
  | push (msg : MsgId) (priority : UInt8)
  | check
  | set (kind : CallbackKind) (cb : Option Callback)
  | install (kind : CallbackKind)
  | take (t : ℕ)
  | lock (t : ℕ)
  deriving DecidableEq

namespace Mailbox

/-- `ps_queue_waiting`. -/
def waiting (s : Mailbox) : ℕ := psQueueWaiting s.queue

def cb (s : Mailbox) : CallbackKind → Option Callback
  | .newMsg => s.newMsgCb
  | .nonEmpty => s.nonEmptyCb

def setCb (s : Mailbox) (kind : CallbackKind) (cb : Option Callback) : Mailbox :=
  match kind with
  | .newMsg => { s with newMsgCb := cb }
  | .nonEmpty => { s with nonEmptyCb := cb }

/-- The end of `push_subscriber_queue` after a push that was stored. -/
def checkCallbacks (s : Mailbox) (su : SubId) : List CallbackCall :=
  (match s.nonEmptyCb with
    | some cb => if s.waiting = 1 then [⟨su, .nonEmpty, cb⟩] else []
    | none => []) ++
  (match s.newMsgCb with
    | some cb => [⟨su, .newMsg, cb⟩]
    | none => [])

/-- One atomic step, with the callbacks it makes. A push that evicts or that is
rejected returns early, without a check. -/
def step (su : SubId) (s : Mailbox) : MailOp → Option (List CallbackCall × Mailbox)
  | .push msg priority =>
    if s.locked = none then do
      let (ret, _, q) ← psQueuePush s.queue msg priority
      match ret with
      | .ok => some ([], { s with queue := q, locked := some .check })
      | .efull | .eoverflow => some ([], { s with queue := q, overflow := s.overflow + 1 })
    else none
  | .check =>
    if s.locked = some .check then some (s.checkCallbacks su, { s with locked := none }) else none
  | .set kind cb =>
    if s.locked = none then some ([], { s.setCb kind cb with locked := some (.install kind) })
    else none
  | .install kind =>
    if s.locked = some (.install kind) then
      some (installCallbacks su kind (s.cb kind) s.waiting, { s with locked := none })
    else none
  | .take t => (threadStep s.toShared (.take t)).map fun (_, sh) => ([], { s with toShared := sh })
  | .lock t => (threadStep s.toShared (.lock t)).map fun (_, sh) => ([], { s with toShared := sh })

/-- A new subscriber. -/
def start (queueSize : ℕ) : Mailbox where
  queue := psNewQueue queueSize
  inFlight := []
  overflow := 0
  newMsgCb := none
  nonEmptyCb := none
  locked := none

end Mailbox

/-- A step with the callbacks it made. -/
abbrev MailEvent := MailOp × List CallbackCall

/-- The steps of the subscriber at `su`. -/
abbrev Mailbox.Steps (su : SubId) (s : Mailbox) (e : MailEvent) (s' : Mailbox) : Prop :=
  s.step su e.1 = some (e.2, s')

/-- An interleaving of deliveries, pulls and changes of the callbacks. -/
abbrev Mailbox.Reaches (su : SubId) (s : Mailbox) (h : List MailEvent) (s' : Mailbox) : Prop :=
  Run (Mailbox.Steps su) s h s'

/-! ### What a step does -/

/-- The steps, as far as the number of waiting messages and `non_empty_cb` depend on them. -/
inductive Effect (su : SubId) (s : Mailbox) : MailOp → List CallbackCall → Mailbox → Prop
  | stored {msg : MsgId} {priority : UInt8} {s' : Mailbox} : s.locked = none →
      s'.locked = some .check → s'.waiting = s.waiting + 1 → s'.nonEmptyCb = s.nonEmptyCb →
      Effect su s (.push msg priority) [] s'
  | refused {msg : MsgId} {priority : UInt8} {s' : Mailbox} : s.locked = none →
      s'.locked = none → s'.waiting = s.waiting → s'.nonEmptyCb = s.nonEmptyCb →
      Effect su s (.push msg priority) [] s'
  | check : s.locked = some .check →
      Effect su s .check (s.checkCallbacks su) { s with locked := none }
  | set {kind : CallbackKind} {cb : Option Callback} : s.locked = none →
      Effect su s (.set kind cb) [] { s.setCb kind cb with locked := some (.install kind) }
  | install {kind : CallbackKind} : s.locked = some (.install kind) →
      Effect su s (.install kind) (installCallbacks su kind (s.cb kind) s.waiting)
        { s with locked := none }
  | pull {op : MailOp} {s' : Mailbox} : (∀ kind cb, op ≠ .set kind cb) → s'.locked = s.locked →
      s'.waiting ≤ s.waiting → s'.nonEmptyCb = s.nonEmptyCb → Effect su s op [] s'

section Steps
variable {s s' : Mailbox} {su : SubId} {op : MailOp} {cbs : List CallbackCall}

/-- The pulls in flight and the messages that wait are all that is stored. -/
def Mailbox.Ok (s : Mailbox) : Prop := Inv s.inFlight.length s.queue

theorem start_ok (n : ℕ) : (Mailbox.start n).Ok := inv_new n

theorem step_effect (hok : s.Ok) (h : s.step su op = some (cbs, s')) :
    s'.Ok ∧ Effect su s op cbs s' := by
  cases op with
  | push msg priority =>
    simp only [Mailbox.step] at h
    split at h
    case isFalse => cases h
    case isTrue hfree =>
      obtain ⟨⟨ret, dropped, q⟩, hpush, h⟩ := Option.bind_eq_some_iff.mp h
      obtain ⟨hinv, -, hpushed⟩ := push_inv hok hpush
      have hold := tokens_add hok
      have hnew := tokens_add hinv
      have hrefused : ret ≠ .ok → (notEmpty q).value = (notEmpty s.queue).value := by
        intro hret
        have hsame := hpushed.refused_length hret
        omega
      cases ret with
      | ok =>
        cases h
        refine ⟨hinv, .stored hfree rfl ?_ rfl⟩
        have hmore := hpushed.ok_length
        show (notEmpty q).value = (notEmpty s.queue).value + 1
        omega
      | efull =>
        cases h
        exact ⟨hinv, .refused hfree hfree (hrefused (by simp)) rfl⟩
      | eoverflow =>
        cases h
        exact ⟨hinv, .refused hfree hfree (hrefused (by simp)) rfl⟩
  | check =>
    simp only [Mailbox.step] at h
    split at h
    case isFalse => cases h
    case isTrue hcheck =>
      cases h
      exact ⟨hok, .check hcheck⟩
  | set kind cb =>
    simp only [Mailbox.step] at h
    split at h
    case isFalse => cases h
    case isTrue hfree =>
      cases h
      refine ⟨?_, .set hfree⟩
      cases kind <;> exact hok
  | install kind =>
    simp only [Mailbox.step] at h
    split at h
    case isFalse => cases h
    case isTrue hinstall =>
      cases h
      exact ⟨hok, .install hinstall⟩
  | take t =>
    obtain ⟨⟨res, sh⟩, hs, heq⟩ := Option.map_eq_some_iff.mp h
    cases heq
    obtain ⟨hinv, hle⟩ := threadStep_pull hok (by simp) hs
    exact ⟨hinv, .pull (by simp) rfl hle rfl⟩
  | lock t =>
    obtain ⟨⟨res, sh⟩, hs, heq⟩ := Option.map_eq_some_iff.mp h
    cases heq
    obtain ⟨hinv, hle⟩ := threadStep_pull hok (by simp) hs
    exact ⟨hinv, .pull (by simp) rfl hle rfl⟩

end Steps

/-! ### The calls of one thread -/

/-- A subscriber that no thread is in the middle of a step with. -/
def Mailbox.of (S : PsSubscriber Bucket.Queue) : Mailbox where
  queue := S.q.raw
  inFlight := []
  overflow := S.overflow
  newMsgCb := S.newMsgCb
  nonEmptyCb := S.nonEmptyCb
  locked := none

section Calls
variable {s s' : Bus Bucket.Queue} {su : SubId} {S : PsSubscriber Bucket.Queue}

/-- The record of `su` went through the steps `k`, which made the new callbacks. -/
def Stepped (su : SubId) (S : PsSubscriber Bucket.Queue) (s s' : Bus Bucket.Queue) : Prop :=
  ∃ S' k, s'.subscribers.get su = some S' ∧ (Mailbox.of S).Reaches su k (Mailbox.of S') ∧
    s'.callbacks = s.callbacks ++ k.flatMap Prod.snd

theorem reaches_two {a b c : Mailbox} {e f : MailEvent} (h₁ : a.Steps su e b) (h₂ : b.Steps su f c) :
    a.Reaches su [e, f] c :=
  (Run.single h₁).snoc h₂

/-- `push_subscriber_queue` is a push and, when the message is stored, a check. -/
theorem pushSubscriberQueue_stepped {via : Str} {msg : MsgId} {priority : UInt8} {r : ℤ}
    (hS : s.subscribers.get su = some S)
    (h : pushSubscriberQueue s su via msg priority = some (r, s')) : Stepped su S s s' := by
  simp only [pushSubscriberQueue, hS, Option.bind_eq_bind, Option.bind_some,
    Option.bind_eq_some_iff] at h
  obtain ⟨ms₁, -, ⟨ret, evicted, q⟩, hpush, ms₂, -, h⟩ := h
  have hraw := IdleQueue.push_eq_some.mp hpush
  have hlocked : (Mailbox.of S).locked = none := rfl
  have hqueue : psQueuePush (Mailbox.of S).queue msg priority = some (ret, evicted, q.raw) := hraw
  have hrefused : ret ≠ .ok → (Mailbox.of S).Steps su (.push msg priority, [])
      (Mailbox.of { S with q := q, overflow := S.overflow + 1 }) := by
    intro hret
    simp only [Mailbox.Steps, Mailbox.step, hlocked, hqueue, ↓reduceIte, Option.bind_eq_bind,
      Option.bind_some]
    cases ret with
    | ok => exact absurd rfl hret
    | efull => rfl
    | eoverflow => rfl
  cases ret with
  | ok =>
    cases h
    refine ⟨{ S with q := q }, [(.push msg priority, []), (.check, deliveryCallbacks su S q.waiting)],
      ?_, ?_, ?_⟩
    · simp only [Cells.get_modify_self, hS, Option.map_some]
    · apply reaches_two (b := { Mailbox.of S with queue := q.raw, locked := some .check })
      · simp only [Mailbox.Steps, Mailbox.step, hlocked, hqueue, ↓reduceIte, Option.bind_eq_bind,
          Option.bind_some]
      · rfl
    · simp
  | efull =>
    obtain ⟨ms₃, -, heq⟩ := Option.bind_eq_some_iff.mp h
    cases heq
    refine ⟨_, _, ?_, .single (hrefused (by simp)), by simp⟩
    simp only [Cells.get_modify_self, hS, Option.map_some]
  | eoverflow =>
    cases h
    refine ⟨_, _, ?_, .single (hrefused (by simp)), by simp⟩
    simp only [Cells.get_modify_self, hS, Option.map_some]

theorem psSetNewMsgCb_stepped {cb : Option Callback} (hS : s.subscribers.get su = some S)
    (h : psSetNewMsgCb s su cb = some s') : Stepped su S s s' := by
  simp only [psSetNewMsgCb, hS, Option.bind_eq_bind, Option.bind_some] at h
  cases h
  refine ⟨{ S with newMsgCb := cb }, [(.set .newMsg cb, []),
    (.install .newMsg, installCallbacks su .newMsg cb S.q.waiting)], ?_, reaches_two rfl rfl, ?_⟩
  · simp only [Bus.modifySubscriber, Cells.get_modify_self, hS, Option.map_some]
  · simp [Bus.modifySubscriber]

theorem psSetNonEmptyCb_stepped {cb : Option Callback} (hS : s.subscribers.get su = some S)
    (h : psSetNonEmptyCb s su cb = some s') : Stepped su S s s' := by
  simp only [psSetNonEmptyCb, hS, Option.bind_eq_bind, Option.bind_some] at h
  cases h
  refine ⟨{ S with nonEmptyCb := cb }, [(.set .nonEmpty cb, []),
    (.install .nonEmpty, installCallbacks su .nonEmpty cb S.q.waiting)], ?_, reaches_two rfl rfl, ?_⟩
  · simp only [Bus.modifySubscriber, Cells.get_modify_self, hS, Option.map_some]
  · simp [Bus.modifySubscriber]

/-- `ps_get` is no step if it finds nothing, and else the two steps of a pull. -/
theorem psGet_stepped {timeout : Int64} {msg : Option MsgId} (hS : s.subscribers.get su = some S)
    (h : psGet s su timeout = some (msg, s')) : Stepped su S s s' := by
  simp only [psGet, hS, Option.bind_eq_bind, Option.bind_some, Option.bind_eq_some_iff] at h
  obtain ⟨⟨m, q⟩, hpull, heq⟩ := h
  cases heq
  have hget : ((s.modifySubscriber su fun _ => { S with q := q }).subscribers.get su) =
      some { S with q := q } := by
    simp only [Bus.modifySubscriber, Cells.get_modify_self, hS, Option.map_some]
  have hraw := IdleQueue.pull_eq_some.mp hpull
  simp only [psQueuePull, semaphoreWait, Option.bind_eq_bind, Option.bind_eq_some_iff] at hraw
  obtain ⟨⟨ret, sem⟩, hwait, hraw⟩ := hraw
  split at hwait
  case h_1 sem' htake =>
    cases hwait
    simp only [Int.lt_irrefl, ↓reduceIte] at hraw
    refine ⟨{ S with q := q }, [(.take 0, []), (.lock 0, [])], hget, ?_, by simp [Bus.modifySubscriber]⟩
    have htoken : takeToken S.q.raw = some (setNotEmpty S.q.raw sem) := by
      rw [takeToken, htake, Option.map_some]
    apply reaches_two (b := { Mailbox.of S with queue := setNotEmpty S.q.raw sem, inFlight := [0] })
    · simp [Mailbox.Steps, Mailbox.step, threadStep, Mailbox.of, htoken]
    · simp [Mailbox.Steps, Mailbox.step, threadStep, Mailbox.of, hraw]
  case h_2 hempty =>
    split at hwait
    case isTrue => cases hwait
    case isFalse =>
      cases hwait
      simp only [set_notEmpty, Int.reduceNeg, Int.reduceLT, ↓reduceIte, Option.some.injEq,
        Prod.mk.injEq] at hraw
      refine ⟨{ S with q := q }, [], hget, ?_, by simp [Bus.modifySubscriber]⟩
      have hsame : Mailbox.of { S with q := q } = Mailbox.of S := by
        simp only [Mailbox.of, hraw.2]
      rw [hsame]
      exact .nil

end Calls

/-! ### The invariant -/

/-- `non_empty_cb` was called, and since then messages have waited all the time and it
was not set again. -/
def Woken (su : SubId) (cb : Callback) (s₀ : Mailbox) : List MailEvent → Mailbox → Prop :=
  Since (Mailbox.Steps su) (fun _ e s => ⟨su, .nonEmpty, cb⟩ ∈ e.2 ∧ 0 < s.waiting)
    (fun _ e s => 0 < s.waiting ∧ ∀ cb', e.1 ≠ .set .nonEmpty cb') s₀

/-- The messages whose check is still to come. -/
def Mailbox.unchecked (s : Mailbox) : ℕ := if s.locked = some .check then 1 else 0

/-- What holds after every interleaving: while a push has its check still to come, one
message more may wait. -/
structure Watched (su : SubId) (s₀ : Mailbox) (h : List MailEvent) (s : Mailbox) : Prop where
  run : s₀.Reaches su h s
  ok : s.Ok
  woken : s.locked ≠ some (.install .nonEmpty) → ∀ cb, s.nonEmptyCb = some cb →
    s.unchecked < s.waiting → Woken su cb s₀ h s

section Invariant
variable {s s' s₀ : Mailbox} {su : SubId} {h : List MailEvent} {e : MailEvent} {cb : Callback}

theorem unchecked_of_none (h : s.locked = none) : s.unchecked = 0 := by
  rw [Mailbox.unchecked, h]
  rfl

theorem unchecked_of_check (h : s.locked = some .check) : s.unchecked = 1 := by
  rw [Mailbox.unchecked, if_pos h]

theorem unchecked_of_install {kind : CallbackKind} (h : s.locked = some (.install kind)) :
    s.unchecked = 0 := by
  rw [Mailbox.unchecked, h]
  rfl

theorem mem_checkCallbacks (hcb : s.nonEmptyCb = some cb) (hw : s.waiting = 1) :
    ⟨su, .nonEmpty, cb⟩ ∈ s.checkCallbacks su := by
  simp [Mailbox.checkCallbacks, hcb, hw]

theorem mem_installCallbacks {kind : CallbackKind} {n : ℕ} (hn : 0 < n) :
    ⟨su, kind, cb⟩ ∈ installCallbacks su kind (some cb) n := by
  simp [installCallbacks, hn]

/-- A step that neither sets the callback nor takes the last message. -/
theorem Watched.keep (hw : Watched su s₀ h s) (hs : s.Steps su e s')
    (hlocked : s.locked ≠ some (.install .nonEmpty)) (hset : ∀ cb, e.1 ≠ .set .nonEmpty cb)
    (hcb : s.nonEmptyCb = some cb) (hlt : s.unchecked < s.waiting) (hpos : 0 < s'.waiting) :
    Woken su cb s₀ (h ++ [e]) s' :=
  (hw.woken hlocked cb hcb hlt).later hs ⟨hpos, hset⟩

theorem Watched.step (hw : Watched su s₀ h s) (hs : s.Steps su e s') :
    Watched su s₀ (h ++ [e]) s' := by
  obtain ⟨op, cbs⟩ := e
  obtain ⟨hok, heffect⟩ := step_effect hw.ok hs
  refine ⟨hw.run.snoc hs, hok, fun hlocked cb hcb hlt => ?_⟩
  cases heffect with
  | stored hfree hcheck hwait hsame =>
    have hnone := unchecked_of_none hfree
    have hone := unchecked_of_check hcheck
    exact hw.keep hs (by simp [hfree]) (by simp) (hsame ▸ hcb) (by omega) (by omega)
  | refused hfree hfree' hwait hsame =>
    have hnone := unchecked_of_none hfree
    exact hw.keep hs (by simp [hfree]) (by simp) (hsame ▸ hcb) (by omega) (by omega)
  | check hcheck =>
    have hone := unchecked_of_check hcheck
    have hpos : 0 < s.waiting := Nat.zero_lt_of_lt hlt
    by_cases hwait : s.waiting = 1
    · -- the check finds one message and calls
      exact .now hw.run hs ⟨mem_checkCallbacks hcb hwait, hpos⟩
    · exact hw.keep hs (by simp [hcheck]) (by simp) hcb (by omega) hpos
  | @set kind cb' hfree =>
    have hnone := unchecked_of_none hfree
    cases kind with
    | nonEmpty => exact absurd rfl hlocked
    | newMsg =>
      have hpos : 0 < s.waiting := Nat.zero_lt_of_lt hlt
      exact hw.keep hs (by simp [hfree]) (by simp) hcb (by omega) hpos
  | @install kind hinstall =>
    have hpos : 0 < s.waiting := Nat.zero_lt_of_lt hlt
    cases kind with
    | nonEmpty =>
      have hmem : ⟨su, .nonEmpty, cb⟩ ∈ installCallbacks su .nonEmpty s.nonEmptyCb s.waiting := by
        rw [hcb]
        exact mem_installCallbacks hpos
      exact .now hw.run hs ⟨hmem, hpos⟩
    | newMsg =>
      have hnone := unchecked_of_install hinstall
      exact hw.keep hs (by simp [hinstall]) (by simp) hcb (by omega) hpos
  | pull hset hsame hle hcb' =>
    have hunchecked : s'.unchecked = s.unchecked := by
      rw [Mailbox.unchecked, Mailbox.unchecked, hsame]
    exact hw.keep hs (hsame ▸ hlocked) (hset .nonEmpty) (hcb' ▸ hcb) (by omega) (by omega)

theorem watched_run {n : ℕ} (hr : (Mailbox.start n).Reaches su h s) :
    Watched su (Mailbox.start n) h s := by
  refine hr.history ⟨.nil, start_ok n, fun _ cb hcb => ?_⟩ fun _ _ _ _ _ hw hs => hw.step hs
  cases hcb

end Invariant

/-- No wake-up is lost. In every state that an interleaving reaches, but for those
between a push and its check and within `ps_set_non_empty_cb`: if `non_empty_cb` is
installed and messages wait, then some step called it, and from that step on messages
have waited in every state. -/
theorem no_lost_wakeup {n : ℕ} {su : SubId} {h : List MailEvent} {s : Mailbox} {cb : Callback}
    (hr : (Mailbox.start n).Reaches su h s) (hcheck : s.locked ≠ some .check)
    (hinstall : s.locked ≠ some (.install .nonEmpty)) (hcb : s.nonEmptyCb = some cb)
    (hwait : 0 < s.waiting) :
    ∃ h₁ e h₂ s₁ s₂, h = h₁ ++ e :: h₂ ∧ (Mailbox.start n).Reaches su h₁ s₁ ∧ s₁.Steps su e s₂ ∧
      ⟨su, .nonEmpty, cb⟩ ∈ e.2 ∧ 0 < s₂.waiting ∧
      Run (fun a f b => a.Steps su f b ∧ 0 < b.waiting ∧ ∀ cb', f.1 ≠ .set .nonEmpty cb') s₂ h₂ s := by
  have hunchecked : s.unchecked < s.waiting := by
    rw [Mailbox.unchecked, if_neg hcheck]
    exact hwait
  obtain ⟨h₁, e, h₂, s₁, s₂, heq, hr₁, he, ⟨hmem, hpos⟩, hr₂⟩ :=
    ((watched_run hr).woken hinstall cb hcb hunchecked).split
  exact ⟨h₁, e, h₂, s₁, s₂, heq, hr₁, he, hmem, hpos, hr₂⟩

/-- A push over a waiting message, a pull before its check, and a push that evicts. -/
theorem no_lost_wakeup_race : ∃ (h h₁ h₂ : List MailEvent) (s s₁ s₂ : Mailbox) (e : MailEvent),
    h.map Prod.fst = [.set .nonEmpty (some 5), .install .nonEmpty, .push 0 0, .check, .push 1 0,
      .take 7, .check, .lock 7, .push 2 0, .check, .push 3 4] ∧
    (Mailbox.start 2).Reaches 9 h s ∧ s.waiting = 2 ∧ h = h₁ ++ e :: h₂ ∧
    (Mailbox.start 2).Reaches 9 h₁ s₁ ∧ s₁.Steps 9 e s₂ ∧ ⟨9, .nonEmpty, 5⟩ ∈ e.2 ∧ 0 < s₂.waiting ∧
    Run (fun a f b => a.Steps 9 f b ∧ 0 < b.waiting ∧ ∀ cb', f.1 ≠ .set .nonEmpty cb') s₂ h₂ s := by
  have hcalls : ((exec (Mailbox.step 9) [.set .nonEmpty (some 5), .install .nonEmpty, .push 0 0, .check,
      .push 1 0, .take 7, .check, .lock 7, .push 2 0, .check, .push 3 4] (Mailbox.start 2)).map
        fun (cbs, s) => (cbs, s.locked, s.nonEmptyCb, s.waiting)) =
      some ([[], [], [], [⟨9, .nonEmpty, 5⟩], [], [], [⟨9, .nonEmpty, 5⟩], [], [], [], []],
        none, some 5, 2) := by
    decide +kernel
  obtain ⟨⟨cbs, s⟩, hexec, heq⟩ := Option.map_eq_some_iff.mp hcalls
  simp only [Prod.mk.injEq] at heq
  obtain ⟨rfl, hlocked, hcb, hwait⟩ := heq
  have hrun : (Mailbox.start 2).Reaches 9 _ s := run_of_exec hexec
  obtain ⟨h₁, e, h₂, s₁, s₂, hsplit, hrest⟩ := no_lost_wakeup hrun (by simp [hlocked])
    (by simp [hlocked]) hcb (by omega)
  exact ⟨_, h₁, h₂, s, s₁, s₂, e, rfl, hrun, hwait, hsplit, hrest⟩

end PubSub
