import PubSub.Bus.Serving

/-! The messages that wait for one subscriber, and the calls of its `new_msg_cb`: what
each call of the interface adds to them and takes from them. -/

namespace PubSub

open Lib Bus

variable {Q : Type → Type} [PsQueue Q] [LawfulPsQueue Q]

/-- The number of pushes to `x` that took a free slot. -/
def arrivals (x : SubId) (ps : List Push) : ℕ := ps.countP fun p => p.su = x && p.ret = .ok

/-- The number of calls of the `new_msg_cb` of `x`. -/
def newMsgCalls (x : SubId) (cbs : List CallbackCall) : ℕ :=
  cbs.countP fun c => c.su = x && c.kind = .newMsg

section Counts
variable {x su : SubId} {ps qs : List Push}

@[simp] theorem arrivals_nil (x : SubId) : arrivals x [] = 0 := rfl

@[simp] theorem arrivals_append (x : SubId) (ps qs : List Push) :
    arrivals x (ps ++ qs) = arrivals x ps + arrivals x qs := List.countP_append

@[simp] theorem newMsgCalls_nil (x : SubId) : newMsgCalls x [] = 0 := rfl

@[simp] theorem newMsgCalls_append (x : SubId) (as bs : List CallbackCall) :
    newMsgCalls x (as ++ bs) = newMsgCalls x as + newMsgCalls x bs := List.countP_append

theorem arrivals_le (x : SubId) (ps : List Push) : arrivals x ps ≤ pushesTo x ps := by
  apply List.countP_mono_left
  intro p _ hp
  simp only [Bool.and_eq_true, decide_eq_true_eq] at hp ⊢
  exact hp.1

theorem arrivals_eq_zero (h : ∀ p ∈ ps, p.su ≠ x) : arrivals x ps = 0 := by
  have hle := arrivals_le x ps
  rw [pushesTo_eq_zero h] at hle
  omega

/-- A stored message is one call of `new_msg_cb`, after that of `non_empty_cb`. -/
theorem newMsgCalls_delivery (x su : SubId) (S : PsSubscriber Q) (n : ℕ) :
    newMsgCalls x (deliveryCallbacks su S n) = if su = x ∧ S.newMsgCb.isSome then 1 else 0 := by
  unfold deliveryCallbacks
  rw [newMsgCalls_append]
  by_cases hn : n = 1
  · cases S.nonEmptyCb <;> cases S.newMsgCb <;> simp [newMsgCalls, List.countP_cons, hn]
  · cases S.nonEmptyCb <;> cases S.newMsgCb <;> simp [newMsgCalls, List.countP_cons, hn]

end Counts

/-- The pushes `ps` and the callbacks `cbs` were made, and `out` messages left the queue
of `x`. -/
structure Flow (x : SubId) (s s' : Bus Q) (ps : List Push) (cbs : List CallbackCall) (out : ℤ) :
    Prop where
  pushes : s'.pushes = s.pushes ++ ps
  callbacks : s'.callbacks = s.callbacks ++ cbs
  next : s.subscribers.next ≤ s'.subscribers.next
  keep : x < s.subscribers.next → (s'.subscribers.get x).isSome → (s.subscribers.get x).isSome
  live : ∀ S S', s.subscribers.get x = some S → s'.subscribers.get x = some S' →
    S'.newMsgCb = S.newMsgCb ∧ (S'.q.waiting : ℤ) + out = S.q.waiting + arrivals x ps ∧
      newMsgCalls x cbs = if S.newMsgCb.isSome then arrivals x ps else 0

namespace Flow
variable {s s' a b c : Bus Q} {x su : SubId} {ps qs : List Push} {cbs ds : List CallbackCall}
  {m n : ℤ} {S N : PsSubscriber Q}

theorem trans (h₁ : Flow x a b ps cbs m) (h₂ : Flow x b c qs ds n) :
    Flow x a c (ps ++ qs) (cbs ++ ds) (m + n) := by
  refine ⟨?_, ?_, h₁.next.trans h₂.next, fun hx hc => ?_, fun S S'' hS hS'' => ?_⟩
  · rw [h₂.pushes, h₁.pushes, List.append_assoc]
  · rw [h₂.callbacks, h₁.callbacks, List.append_assoc]
  · exact h₁.keep hx (h₂.keep (Nat.lt_of_lt_of_le hx h₁.next) hc)
  · have hx := Nat.lt_of_lt_of_le (Cells.lt_next hS) h₁.next
    obtain ⟨S', hS'⟩ := Option.isSome_iff_exists.mp (h₂.keep hx (by rw [hS'']; rfl))
    obtain ⟨hcb₁, hw₁, hcalls₁⟩ := h₁.live S S' hS hS'
    obtain ⟨hcb₂, hw₂, hcalls₂⟩ := h₂.live S' S'' hS' hS''
    refine ⟨hcb₂.trans hcb₁, ?_, ?_⟩
    · rw [arrivals_append]
      omega
    · rw [newMsgCalls_append, arrivals_append, hcalls₁, hcalls₂, hcb₁]
      split
      · rfl
      · rfl

/-- Nothing happens to the subscriber itself. -/
theorem of_get (hp : s'.pushes = s.pushes ++ ps) (hcbs : s'.callbacks = s.callbacks ++ cbs)
    (hps : ∀ p ∈ ps, p.su ≠ x) (hcalls : newMsgCalls x cbs = 0)
    (hnext : s.subscribers.next ≤ s'.subscribers.next)
    (hkeep : x < s.subscribers.next → (s'.subscribers.get x).isSome → (s.subscribers.get x).isSome)
    (hget : ∀ S S', s.subscribers.get x = some S → s'.subscribers.get x = some S' →
      S'.q = S.q ∧ S'.newMsgCb = S.newMsgCb) : Flow x s s' ps cbs 0 := by
  refine ⟨hp, hcbs, hnext, hkeep, fun S S' hS hS' => ?_⟩
  obtain ⟨hq, hcb⟩ := hget S S' hS hS'
  refine ⟨hcb, ?_, ?_⟩
  · rw [hq, arrivals_eq_zero hps]
    rfl
  · rw [hcalls, arrivals_eq_zero hps]
    split
    · rfl
    · rfl

theorem of_same (hsubs : s'.subscribers = s.subscribers) (hp : s'.pushes = s.pushes)
    (hcbs : s'.callbacks = s.callbacks) : Flow x s s' [] [] 0 := by
  refine .of_get (by rw [hp, List.append_nil]) (by rw [hcbs, List.append_nil]) (by simp) rfl
    (by rw [hsubs]) (fun _ h => by rwa [hsubs] at h) fun S S' hS hS' => ?_
  rw [hsubs, hS] at hS'
  cases hS'
  exact ⟨rfl, rfl⟩

/-- A change of one subscriber that leaves its queue and its callbacks. -/
theorem of_touch (hp : s'.pushes = s.pushes) (hcbs : s'.callbacks = s.callbacks ++ cbs)
    (hcalls : newMsgCalls x cbs = 0) (hS : s.subscribers.get su = some S)
    (hsubs : s'.subscribers = s.subscribers.modify su fun _ => N)
    (hN : su = x → N.q = S.q ∧ N.newMsgCb = S.newMsgCb) : Flow x s s' [] cbs 0 := by
  refine .of_get (by rw [hp, List.append_nil]) hcbs (by simp) hcalls (by rw [hsubs]; exact Nat.le_refl _)
    (fun _ h => ?_) fun T T' hT hT' => ?_
  · rwa [hsubs, sameSubscribers_modify] at h
  · rw [hsubs, Cells.get_modify] at hT'
    split at hT'
    case isTrue hx =>
      rw [← hx, hT] at hS
      cases hS
      rw [hT, Option.map_some] at hT'
      cases hT'
      exact hN hx.symm
    case isFalse =>
      rw [hT] at hT'
      cases hT'
      exact ⟨rfl, rfl⟩

/-- Messages leave the queue of one subscriber. -/
theorem of_read {k : ℤ} {q : IdleQueue Q MsgId} (hp : s'.pushes = s.pushes)
    (hcbs : s'.callbacks = s.callbacks) (hS : s.subscribers.get su = some S)
    (hsubs : s'.subscribers = s.subscribers.modify su fun _ => { S with q := q })
    (hq : (q.waiting : ℤ) + k = S.q.waiting) : Flow x s s' [] [] (toSub su k x) := by
  rw [toSub]
  split
  case isFalse hx =>
    exact .of_touch hp (by rw [hcbs, List.append_nil]) rfl hS hsubs fun h => absurd h.symm hx
  case isTrue hx =>
    subst hx
    refine ⟨by rw [hp, List.append_nil], by rw [hcbs, List.append_nil],
      by rw [hsubs]; exact Nat.le_refl _, fun _ h => ?_, fun T T' hT hT' => ?_⟩
    · rwa [hsubs, sameSubscribers_modify] at h
    · rw [hsubs, Cells.get_modify_self, hS, Option.map_some] at hT'
      rw [hS] at hT
      cases hT
      cases hT'
      refine ⟨rfl, by simpa using hq, ?_⟩
      split
      · rfl
      · rfl

end Flow

/-! ### Pushes and reads -/

section Queues
variable {s s' : Bus Q} {x su : SubId} {n : ℕ}

theorem PushStep.flow {p : Push} (h : PushStep s p s') : ∃ cbs, Flow x s s' [p] cbs 0 := by
  obtain ⟨S, evicted, q, ms₁, ms₂, ms₃, hS, hq, -, -, -, rfl⟩ := h
  refine ⟨_, rfl, rfl, Nat.le_refl _, fun _ h => ?_, fun T T' hT hT' => ?_⟩
  · rwa [sameSubscribers_modify] at h
  · by_cases hx : p.su = x
    · subst hx
      rw [hS] at hT
      cases hT
      rw [Cells.get_modify_self, hS, Option.map_some] at hT'
      cases hT'
      have hlen := (IdleQueue.push_spec hq).2.length
      rw [← IdleQueue.waiting_eq, ← IdleQueue.waiting_eq] at hlen
      refine ⟨rfl, ?_, ?_⟩
      · rw [hlen]
        simp [arrivals, List.countP_cons]
      · by_cases hret : p.ret = .ok
        · rw [if_pos hret, newMsgCalls_delivery]
          simp [arrivals, hret]
        · simp [arrivals, hret]
    · rw [Cells.get_modify_of_ne _ _ (Ne.symm hx), hT] at hT'
      cases hT'
      have harr : arrivals x [p] = 0 := arrivals_eq_zero (by simpa using hx)
      rw [harr]
      refine ⟨rfl, rfl, ?_⟩
      by_cases hret : p.ret = .ok
      · rw [if_pos hret, newMsgCalls_delivery]
        simp [hx]
      · simp [hret]

theorem Bus.Pushes.flow {ps : List Push} (h : s.Pushes ps s') : ∃ cbs, Flow x s s' ps cbs 0 := by
  induction h with
  | nil => exact ⟨[], .of_same rfl rfl rfl⟩
  | snoc _ hp ih =>
    obtain ⟨cbs, hrest⟩ := ih
    obtain ⟨ds, hlast⟩ := hp.flow
    exact ⟨cbs ++ ds, hrest.trans hlast⟩

theorem psGet_flow {timeout : Int64} {msg : Option MsgId} (h : psGet s su timeout = some (msg, s')) :
    Flow x s s' [] [] (toSub su (if msg.isSome then 1 else 0) x) := by
  obtain ⟨S, q, hS, hq, rfl⟩ := psGet_eq_some.mp h
  have htaken : (q.waiting : ℤ) + (if msg.isSome then 1 else 0) = S.q.waiting := by
    rcases IdleQueue.pull_spec hq with ⟨rfl, -, rfl⟩ | ⟨m, rfl, -, hm⟩
    · exact add_zero _
    · rw [IdleQueue.waiting_eq, IdleQueue.waiting_eq, hm]
      rfl
  exact .of_read rfl rfl hS rfl htaken

theorem psFlush_flow (h : psFlush s su = some (n, s')) :
    Flow x s s' [] [] (toSub su n x) := by
  obtain ⟨S, q, ms, hS, hf⟩ := psFlush_flushed h
  refine Flow.of_read (by rw [hf.state]) (by rw [hf.state]) hS (by rw [hf.state]) ?_
  rw [IdleQueue.waiting_eq, IdleQueue.waiting_eq, hf.empty, hf.count]
  exact zero_add _

theorem psOverflow_flow {r : ℤ} (h : psOverflow s su = some (r, s')) : Flow x s s' [] [] 0 := by
  obtain ⟨S, hS, -, rfl⟩ := psOverflow_eq_some h
  exact .of_touch rfl (List.append_nil _).symm rfl hS rfl fun _ => ⟨rfl, rfl⟩

end Queues

/-! ### The calls -/

section Calls
variable {s s' : Bus Q} {x su : SubId} {n : ℕ} {r : ℤ}

theorem psSubscribeFlags_flow {topicOrig : Str} {pflags : Option PsSubFlags} (hok : s.Ok)
    (h : psSubscribeFlags s su topicOrig pflags = some (r, s')) :
    ∃ ps cbs, Flow x s s' ps cbs 0 := by
  rcases psSubscribeFlags_cases hok h with ⟨-, -, rfl⟩ | ⟨-, s₁, ps, hsub⟩
  · exact ⟨[], [], .of_same rfl rfl rfl⟩
  · obtain ⟨S, tm, hS, hsubs⟩ := hsub.subscribers
    have hfirst : Flow x s s₁ [] [] 0 := .of_touch hsub.rest.2.1
      (by rw [hsub.callbacks, List.append_nil]) rfl hS hsubs fun _ => ⟨rfl, rfl⟩
    obtain ⟨cbs, hrest⟩ := hsub.pushes.flow
    exact ⟨_, _, hfirst.trans hrest⟩

theorem psUnsubscribe_flow {otopic : Str} (hok : s.Ok) (h : psUnsubscribe s su otopic = some (r, s')) :
    Flow x s s' [] [] 0 := by
  rcases psUnsubscribe_cases hok h with ⟨-, -, rfl⟩ | ⟨-, -, S, tm, hS, -, hsubs, -, heq, -⟩
  · exact .of_same rfl rfl rfl
  · exact .of_touch (by rw [heq]) (by rw [heq, List.append_nil]) rfl hS hsubs fun _ => ⟨rfl, rfl⟩

theorem flow_refl (s : Bus Q) : ∃ ps cbs, Flow x s s ps cbs 0 := ⟨[], [], .of_same rfl rfl rfl⟩

theorem flow_trans {a b c : Bus Q} (h₁ : ∃ ps cbs, Flow x a b ps cbs 0)
    (h₂ : ∃ ps cbs, Flow x b c ps cbs 0) : ∃ ps cbs, Flow x a c ps cbs 0 := by
  obtain ⟨ps, cbs, h₁⟩ := h₁
  obtain ⟨qs, ds, h₂⟩ := h₂
  exact ⟨_, _, h₁.trans h₂⟩

theorem psSubscribeMany_flow {subs : Option (List Str)} (hok : s.Ok)
    (h : psSubscribeMany s su subs = some (n, s')) : ∃ ps cbs, Flow x s s' ps cbs 0 :=
  psSubscribeMany_rule (R := fun s s' => ∃ ps cbs, Flow x s s' ps cbs 0) (fun s _ => flow_refl s)
    (fun _ _ _ => flow_trans) (fun _ _ _ _ hok h => psSubscribeFlags_flow hok h) hok h

theorem psUnsubscribeMany_flow {subs : Option (List Str)} (hok : s.Ok)
    (h : psUnsubscribeMany s su subs = some (n, s')) : ∃ ps cbs, Flow x s s' ps cbs 0 :=
  psUnsubscribeMany_rule (R := fun s s' => ∃ ps cbs, Flow x s s' ps cbs 0) (fun s _ => flow_refl s)
    (fun _ _ _ => flow_trans) (fun _ _ _ _ hok h => ⟨[], [], psUnsubscribe_flow hok h⟩) hok h

theorem psUnsubscribeAll_flow (hok : s.Ok) (h : psUnsubscribeAll s su = some (n, s')) :
    Flow x s s' [] [] 0 := by
  obtain ⟨S, T, hS, -, rfl, -, -, -⟩ := psUnsubscribeAll_eq_some hok h
  refine .of_touch rfl (List.append_nil _).symm rfl hS (N := { S with subs := [] }) ?_
    fun _ => ⟨rfl, rfl⟩
  rw [Cells.modify_eq_set hS, Cells.modify_eq_set hS]

/-- A subscriber that lives keeps its place when another is made. -/
theorem addSubscriber_flow (s : Bus Q) (queueSize : ℕ) :
    Flow x s (addSubscriber s queueSize) [] [] 0 := by
  have hget : x < s.subscribers.next →
      (addSubscriber s queueSize).subscribers.get x = s.subscribers.get x := by
    intro hx
    rw [addSubscriber, Cells.get_alloc, if_neg (Nat.ne_of_lt hx)]
  refine .of_get (List.append_nil _).symm (List.append_nil _).symm (by simp) rfl (Nat.le_succ _)
    (fun hx h => by rwa [hget hx] at h) fun S S' hS hS' => ?_
  rw [hget (Cells.lt_next hS), hS] at hS'
  cases hS'
  exact ⟨rfl, rfl⟩

theorem psNewSubscriber_flow {queueSize : ℕ} {subs : Option (List Str)} (hok : s.Ok)
    (h : psNewSubscriber s queueSize subs = some (su, s')) : ∃ ps cbs, Flow x s s' ps cbs 0 := by
  obtain ⟨-, n, s₁, h₁, rfl⟩ := psNewSubscriber_eq_some h
  obtain ⟨ps, cbs, hmany⟩ := psSubscribeMany_flow (x := x) (addSubscriber_quiet hok queueSize).ok h₁
  have hend : Flow x s₁ { s₁ with statLiveSubscribers := s₁.statLiveSubscribers + 1 } [] [] 0 :=
    .of_same rfl rfl rfl
  exact ⟨_, _, (addSubscriber_flow s queueSize).trans (hmany.trans hend)⟩

theorem psFreeSubscriber_flow (hok : s.Ok) (h : psFreeSubscriber s su = some s') :
    Flow x s s' [] [] 0 := by
  obtain ⟨s₂, S, -, hsame, -, -, -, hlog, hother, -, rfl⟩ := psFreeSubscriber_eq_some hok h
  have hget : ∀ S', (s₂.subscribers.free su).get x = some S' → s.subscribers.get x = some S' := by
    intro S' hS'
    rw [Cells.get_free] at hS'
    split at hS'
    case isTrue => cases hS'
    case isFalse hx => rwa [← hother x hx]
  refine .of_get (by rw [hlog.1, List.append_nil]) (by rw [hlog.2, List.append_nil]) (by simp) rfl
    (Nat.le_of_eq hsame.next.symm) (fun _ h => ?_) fun S S' hS hS' => ?_
  · obtain ⟨S', hS'⟩ := Option.isSome_iff_exists.mp h
    rw [hget S' hS']
    rfl
  · rw [hget S' hS'] at hS
    cases hS
    exact ⟨rfl, rfl⟩

theorem Published.flow {msg : MsgId} {m : PsMsg} {topic : Str} {as : List Attempt} {s₀ s₁ : Bus Q}
    (h : Published s msg n s' m topic as s₀ s₁) :
    ∃ cbs, Flow x s s' (as.map (Attempt.push msg)) cbs 0 := by
  have hfirst : Flow x s s₀ [] [] 0 := by
    obtain ⟨ms₁, ms₂, -, -, rfl⟩ := h.stickyStep
    exact .of_same rfl rfl rfl
  have hlast : Flow x s₁ s' [] [] 0 := by
    obtain ⟨ms, -, rfl⟩ := h.release
    exact .of_same rfl rfl rfl
  obtain ⟨cbs, hpushes⟩ := h.pushes.flow (x := x)
  have hall := hfirst.trans (hpushes.trans hlast)
  simp only [List.nil_append, List.append_nil, add_zero] at hall
  exact ⟨cbs, hall⟩

/-- What leaves the queue of a new subscriber is nothing to those that lived before it. -/
theorem Flow.of_new {ps : List Push} {cbs : List CallbackCall} {k : ℤ}
    (h : Flow x s s' ps cbs (toSub su k x)) (hsu : s.subscribers.get su = none) :
    Flow x s s' ps cbs 0 := by
  refine ⟨h.pushes, h.callbacks, h.next, h.keep, fun S S' hS hS' => ?_⟩
  have hx : x ≠ su := by
    rintro rfl
    rw [hS] at hsu
    cases hsu
  have hlive := h.live S S' hS hS'
  rwa [toSub, if_neg hx] at hlive

/-- The temporary subscriber of a call takes its reads with it. -/
theorem Called.flow {msg : MsgId} {timeout : Int64} {ret : Option MsgId} {s₁ s₂ s₃ s₄ : Bus Q}
    (h : Called s msg timeout ret s' s₁ s₂ s₃ s₄ su n) (hok : s.Ok) :
    ∃ ps cbs, Flow x s s' ps cbs 0 := by
  obtain ⟨hok₁, hok₂, hok₃, hok₄, -⟩ := h.oks hok
  have hcounter : Flow x s s₁ [] [] 0 ∧ s₁.subscribers = s.subscribers := by
    obtain ⟨ms, -, rfl⟩ := h.counter
    exact ⟨.of_same rfl rfl rfl, rfl⟩
  obtain ⟨ps, cbs, hnew⟩ := psNewSubscriber_flow (x := x) hok₁ h.new
  obtain ⟨m, topic, as, t₀, t₁, hpub⟩ := psPublish_published hok₂.names hok₂.alive h.publish
  obtain ⟨ds, hpublish⟩ := hpub.flow (x := x)
  have hget : ∃ k, Flow x s₃ s₄ [] [] (toSub su k x) := by
    rcases h.get with ⟨-, -, rfl⟩ | ⟨-, hget⟩
    · exact ⟨0, by rw [toSub_zero]; exact .of_same rfl rfl rfl⟩
    · exact ⟨_, psGet_flow hget⟩
  obtain ⟨k, hget⟩ := hget
  have hall := hcounter.1.trans
    (hnew.trans (hpublish.trans (hget.trans (psFreeSubscriber_flow hok₄ h.free))))
  simp only [zero_add, add_zero] at hall
  refine ⟨_, _, hall.of_new ?_⟩
  rw [(psNewSubscriber_eq_some h.new).1, hcounter.2]
  exact Cells.get_next _

theorem psWaitOne_flow {topic : Str} {timeout : Int64} {ret : Option MsgId} (hok : s.Ok)
    (h : psWaitOne s topic timeout = some (ret, s')) : ∃ ps cbs, Flow x s s' ps cbs 0 := by
  obtain ⟨su, s₁, s₂, hnew, hget, hfree⟩ := psWaitOne_eq_some h
  have hok₁ := (psNewSubscriber_quiet hok hnew).ok
  obtain ⟨ps, cbs, hfirst⟩ := psNewSubscriber_flow (x := x) hok hnew
  have hall := hfirst.trans ((psGet_flow hget).trans
    (psFreeSubscriber_flow (psGet_ok hok₁ hget).1 hfree))
  simp only [zero_add, add_zero] at hall
  refine ⟨_, _, hall.of_new ?_⟩
  rw [(psNewSubscriber_eq_some hnew).1]
  exact Cells.get_next _

end Calls

/-! ### One call -/

theorem newMsgCalls_install {x su : SubId} {kind : CallbackKind} (h : kind = .newMsg → su ≠ x)
    (cb : Option Callback) (n : ℕ) : newMsgCalls x (installCallbacks su kind cb n) = 0 := by
  have hone : ∀ cb, newMsgCalls x [⟨su, kind, cb⟩] = 0 := by
    intro cb
    rw [newMsgCalls, List.countP_eq_zero]
    intro c hc
    rw [List.mem_singleton.mp hc]
    simp only [Bool.and_eq_true, decide_eq_true_eq]
    exact fun hsu => h hsu.2 hsu.1
  unfold installCallbacks
  split
  · split
    · exact hone _
    · rfl
  · rfl

/-- A call that leaves the `new_msg_cb` of `x` in place: what waits grows by the messages
that took a free slot and shrinks by those pulled, and each of the former is one callback. -/
theorem step_flow {s s' : Bus Q} {x : SubId} {op : Op} {r : Ret} (hok : s.Ok)
    (hcb : ∀ cb, op ≠ .setNewMsgCb x cb) (h : step s op = some (r, s')) :
    ∃ ps cbs, Flow x s s' ps cbs (gotBy x (op, r) + flushedBy x (op, r)) := by
  cases op
  all_goals
    obtain ⟨y, hy, heq⟩ := Option.map_eq_some_iff.mp h
    cases heq
  case newSubscriber => exact psNewSubscriber_flow hok hy
  case freeSubscriber => exact ⟨[], [], psFreeSubscriber_flow hok hy⟩
  case setNewMsgCb su cb =>
    have hx : su ≠ x := by
      rintro rfl
      exact hcb cb rfl
    obtain ⟨S, hS, heq⟩ := Option.bind_eq_some_iff.mp hy
    cases heq
    exact ⟨[], _, .of_touch rfl rfl (newMsgCalls_install (fun _ => hx) cb _) hS rfl
      fun h => absurd h hx⟩
  case setNonEmptyCb su cb =>
    obtain ⟨S, hS, heq⟩ := Option.bind_eq_some_iff.mp hy
    cases heq
    exact ⟨[], _, .of_touch rfl rfl (newMsgCalls_install (by simp) cb _) hS rfl
      fun _ => ⟨rfl, rfl⟩⟩
  case get su timeout =>
    obtain ⟨msg, s'⟩ := y
    have hget := psGet_flow (x := x) hy
    refine ⟨[], [], ?_⟩
    cases msg with
    | none => simpa [gotBy, flushedBy, toSub] using hget
    | some msg => simpa [gotBy, flushedBy] using hget
  case flush su =>
    have hflush := psFlush_flow (x := x) hy
    exact ⟨[], [], by simpa [gotBy, flushedBy] using hflush⟩
  case overflow su =>
    obtain ⟨n, s'⟩ := y
    exact ⟨[], [], psOverflow_flow hy⟩
  case subscribe => exact psSubscribeFlags_flow hok hy
  case subscribeFlags => exact psSubscribeFlags_flow hok hy
  case subscribeMany => exact psSubscribeMany_flow hok hy
  case unsubscribe => exact ⟨[], [], psUnsubscribe_flow hok hy⟩
  case unsubscribeMany => exact psUnsubscribeMany_flow hok hy
  case unsubscribeAll => exact ⟨[], [], psUnsubscribeAll_flow hok hy⟩
  case publish msg =>
    cases msg with
    | none =>
      cases hy
      exact flow_refl _
    | some msg =>
      obtain ⟨n, s'⟩ := y
      obtain ⟨m, topic, as, s₀, s₁, hp⟩ := psPublish_published hok.names hok.alive hy
      exact ⟨_, hp.flow⟩
  case cleanSticky pre =>
    have hc := psCleanSticky_cleaned hok.names hok.alive hy
    exact ⟨[], [], .of_same hc.subscribers hc.pushes hc.callbacks⟩
  case call msg timeout =>
    obtain ⟨ret, s'⟩ := y
    obtain ⟨s₁, s₂, s₃, s₄, su, n, hc⟩ := psCall_called hy
    exact hc.flow hok
  case waitOne topic timeout => exact psWaitOne_flow hok hy
  all_goals exact ⟨[], [], .of_same rfl rfl rfl⟩

end PubSub
