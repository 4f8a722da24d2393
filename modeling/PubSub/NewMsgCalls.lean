import PubSub.Bus.Flow
import PubSub.Queue.Bucket

/-! One call of `new_msg_cb` for each message that can be read: the calls since it was
set are the messages pulled and those that wait, over runs of any length and for either
queue. -/

namespace PubSub

open Lib Bus

variable {Q : Type → Type} [PsQueue Q] [LawfulPsQueue Q]

/-- The messages that were pulled for `su` in a history. -/
def pulledAll (su : SubId) (h : List Label) : ℤ :=
  (h.map (gotBy su)).sum + (h.map (flushedBy su)).sum

theorem pulledAll_snoc (su : SubId) (h : List Label) (e : Label) :
    pulledAll su (h ++ [e]) = pulledAll su h + (gotBy su e + flushedBy su e) := by
  unfold pulledAll
  simp only [List.map_append, List.sum_append, List.map_singleton, List.sum_singleton]
  omega

/-- The steps after which the `new_msg_cb` of `su` is the one it was. -/
def KeepsCb (su : SubId) (s : Bus Q) (e : Label) (s' : Bus Q) : Prop :=
  step s e.1 = some (e.2, s') ∧ ∀ cb, e.1 ≠ .setNewMsgCb su cb

/-- The balance of the calls since the state `s₁`, as long as the subscriber lives. -/
structure Balanced (s₁ : Bus Q) (su : SubId) (h : List Label) (s : Bus Q) : Prop where
  ok : s.Ok
  lt : su < s.subscribers.next
  calls : ∃ cbs, s.callbacks = s₁.callbacks ++ cbs ∧ ∀ S, s.subscribers.get su = some S →
    S.newMsgCb.isSome ∧ (newMsgCalls su cbs : ℤ) = pulledAll su h + S.q.waiting

section Balance
variable {s s' s₁ : Bus Q} {su : SubId} {h : List Label} {e : Label} {cb : Callback}

/-- A callback that is set while nothing waits is not called for it. -/
theorem Balanced.installed (hok : s.Ok) (hempty : psWaiting s su = some 0)
    (hset : psSetNewMsgCb s su (some cb) = some s₁) :
    s₁.callbacks = s.callbacks ∧ Balanced s₁ su [] s₁ := by
  have hs : step s (.setNewMsgCb su (some cb)) = some (.unit, s₁) := by
    rw [step, hset]
    rfl
  obtain ⟨S, hS, hw⟩ := Option.bind_eq_some_iff.mp hempty
  obtain ⟨S', hS', heq⟩ := Option.bind_eq_some_iff.mp hset
  rw [hS] at hS'
  cases hS'
  have hzero : S.q.waiting = 0 := Option.some.inj hw
  have hget : s₁.subscribers.get su = some { S with newMsgCb := some cb } := by
    rw [← Option.some.inj heq, Bus.modifySubscriber, Cells.get_modify_self, hS, Option.map_some]
  constructor
  · rw [← Option.some.inj heq, installCallbacks, hzero]
    exact List.append_nil _
  · refine ⟨(step_spec hok hs).ok, Cells.lt_next hget, [], (List.append_nil _).symm, fun T hT => ?_⟩
    rw [hget] at hT
    cases hT
    refine ⟨rfl, ?_⟩
    change ((0 : ℕ) : ℤ) = 0 + S.q.waiting
    rw [hzero]
    rfl

theorem Balanced.step (hb : Balanced s₁ su h s) (hs : KeepsCb su s e s') :
    Balanced s₁ su (h ++ [e]) s' := by
  obtain ⟨op, r⟩ := e
  obtain ⟨hs, hkeep⟩ := hs
  dsimp only at hs hkeep
  obtain ⟨ps, ds, hflow⟩ := step_flow hb.ok hkeep hs
  obtain ⟨cbs, hcbs, hcalls⟩ := hb.calls
  refine ⟨(step_spec hb.ok hs).ok, Nat.lt_of_lt_of_le hb.lt hflow.next, cbs ++ ds, ?_,
    fun S' hS' => ?_⟩
  · rw [hflow.callbacks, hcbs, List.append_assoc]
  · obtain ⟨S, hS⟩ := Option.isSome_iff_exists.mp (hflow.keep hb.lt (by rw [hS']; rfl))
    obtain ⟨hsome, hbalance⟩ := hcalls S hS
    obtain ⟨hcb, hwaiting, hnew⟩ := hflow.live S S' hS hS'
    rw [if_pos hsome] at hnew
    refine ⟨by rw [hcb, hsome], ?_⟩
    rw [newMsgCalls_append, pulledAll_snoc]
    omega

theorem Balanced.run (h₀ : Balanced s₁ su [] s₁) (hr : Run (KeepsCb su) s₁ h s) :
    Balanced s₁ su h s :=
  hr.history (P := fun h s => Balanced s₁ su h s) h₀ fun _ _ _ _ _ hb hs => hb.step hs

/-- A `ps_get` of a subscriber with a message that waits returns one, for any timeout. -/
theorem psGet_of_waiting {n : ℕ} (hw : psWaiting s su = some n) (hn : 0 < n) (timeout : Int64) :
    ∃ m s', psGet s su timeout = some (some m, s') := by
  obtain ⟨S, hS, heq⟩ := Option.bind_eq_some_iff.mp hw
  cases heq
  have hitems : S.q.items ≠ [] := by
    intro hnil
    rw [IdleQueue.waiting_eq, hnil] at hn
    exact absurd hn (Nat.lt_irrefl 0)
  obtain ⟨msg, q, hq⟩ := S.q.pull_isSome (t := timeout) (.inl hitems)
  have hget := psGet_eq_some.mpr ⟨S, q, hS, hq, rfl⟩
  rcases IdleQueue.pull_spec hq with ⟨-, hnil, -⟩ | ⟨m, rfl, -, -⟩
  · exact absurd hnil hitems
  · exact ⟨m, _, hget⟩

end Balance

/-- From a state in which nothing waits and `new_msg_cb` is set, as long as it is not set
again: its calls are the messages got and flushed and those that wait. So while there is
a call that no pull has answered a `ps_get` returns a message, and when there is none
nothing is left behind. -/
theorem new_msg_calls {h₀ h : List Label} {s₀ s₁ s : Bus Q} {su : SubId} {cb : Callback} {n : ℕ}
    (hr₀ : Bus.init.Reaches h₀ s₀) (hempty : psWaiting s₀ su = some 0)
    (hset : psSetNewMsgCb s₀ su (some cb) = some s₁) (hr : Run (KeepsCb su) s₁ h s)
    (hw : psWaiting s su = some n) :
    ∃ cbs, s.callbacks = s₀.callbacks ++ cbs ∧
      (newMsgCalls su cbs : ℤ) = (h.map (gotBy su)).sum + (h.map (flushedBy su)).sum + n ∧
      ((h.map (gotBy su)).sum + (h.map (flushedBy su)).sum < newMsgCalls su cbs →
        ∀ timeout, ∃ m s', psGet s su timeout = some (some m, s')) ∧
      ((h.map (gotBy su)).sum + (h.map (flushedBy su)).sum = newMsgCalls su cbs → n = 0) := by
  obtain ⟨hcbs₁, hstart⟩ := Balanced.installed hr₀.ok hempty hset
  obtain ⟨cbs, hcbs, hcalls⟩ := (hstart.run hr).calls
  obtain ⟨S, hS, heq⟩ := Option.bind_eq_some_iff.mp hw
  cases heq
  have hbalance := (hcalls S hS).2
  rw [pulledAll] at hbalance
  refine ⟨cbs, by rw [hcbs, hcbs₁], hbalance, fun hlt => ?_, fun heq => ?_⟩
  · apply psGet_of_waiting hw
    omega
  · omega

/-- A queue of one that stores, evicts and rejects, is read, and stores again. -/
theorem new_msg_calls_evict : ∃ (h : List Label) (s₁ s : Bus Bucket.Queue),
    Run (KeepsCb 0) s₁ h s ∧ (s.pushes.map Push.ret) = [.ok, .eoverflow, .efull, .ok] ∧
    newMsgCalls 0 s.callbacks = 2 ∧
    (2 : ℤ) = (h.map (gotBy 0)).sum + (h.map (flushedBy 0)).sum + 1 := by
  have hcalls : ((exec (step (Q := Bucket.Queue)) [.newSubscriber 1
      (some ["a".toList, "b p5".toList])] Bus.init).bind fun (rs, s₀) =>
        (psSetNewMsgCb s₀ 0 (some 7)).bind fun s₁ =>
          (exec (step (Q := Bucket.Queue)) [.newMsg (some "a".toList) 0x800 .nil, .publish (some 0),
            .newMsg (some "b".toList) 0x800 .nil, .publish (some 1),
            .newMsg (some "a".toList) 0x800 .nil, .publish (some 2), .get 0 0,
            .newMsg (some "a".toList) 0x800 .nil, .publish (some 3)] s₁).map fun (_, s) =>
              (psWaiting s₀ 0, s₀.callbacks, psWaiting s 0, s.callbacks, s.pushes.map Push.ret)) =
      some (some 0, [], some 1, [⟨0, .newMsg, 7⟩, ⟨0, .newMsg, 7⟩],
        [.ok, .eoverflow, .efull, .ok]) := by
    decide +kernel
  obtain ⟨⟨rs₀, s₀⟩, hexec₀, hrest⟩ := Option.bind_eq_some_iff.mp hcalls
  obtain ⟨s₁, hset, hrest⟩ := Option.bind_eq_some_iff.mp hrest
  obtain ⟨⟨rs, s⟩, hexec, heq⟩ := Option.map_eq_some_iff.mp hrest
  simp only [Prod.mk.injEq] at heq
  obtain ⟨hw₀, hcbs₀, hw, hcbs, hrets⟩ := heq
  have hrun : Run (KeepsCb 0) s₁ _ s :=
    run_of_exec_all (P := fun _ (op : Op) => ∀ cb, op ≠ .setNewMsgCb 0 cb) hexec (by simp)
  obtain ⟨cbs, happ, hsum, -⟩ := new_msg_calls (run_of_exec hexec₀) hw₀ hset hrun hw
  rw [hcbs, hcbs₀, List.nil_append] at happ
  refine ⟨_, s₁, s, hrun, hrets, by rw [hcbs]; rfl, ?_⟩
  rw [← happ] at hsum
  exact hsum

end PubSub
