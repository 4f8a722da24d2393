import PubSub.Calls
import PubSub.Origins

/-! The replies of `ps_call`: for all orders of the steps of calls, of other clients
and of timeouts, a call returns nothing but messages published on its own `rtopic`. -/

namespace PubSub

open Lib Bus

variable {Q : Type → Type} [PsQueue Q] [LawfulPsQueue Q]

/-! ### What waits in a queue -/

/-- After the events `es` what waits was pushed, and what topics retain was published
there. -/
structure Traced (es : List StickyEvent) (s : Bus Q) : Prop where
  ok : s.Ok
  known : ∀ p ∈ s.pushes, p.su < s.subscribers.next
  queued : ∀ su S, s.subscribers.get su = some S → ∀ x ∈ S.q.items,
    ∃ p ∈ s.pushes, p.su = su ∧ p.msg = x
  sticky : ∀ t x, stickyAt s.topicMap t = some x → ∃ b, .publish x t b ∈ es

/-- The message was published on `topic` or below it. -/
def PublishedBelow (es : List StickyEvent) (topic : Str) (x : MsgId) : Prop :=
  ∃ t b, .publish x t b ∈ es ∧ IsAncestor '.' topic t

/-- The subscriber has no subscription but that to `topic`, and is sent nothing but
messages published there or below. -/
structure Owns (es : List StickyEvent) (s : Bus Q) (su : SubId) (topic : Str) : Prop where
  known : su < s.subscribers.next
  listed : ∀ name, su ∈ (entriesAt s.topicMap name).map SubscriberList.su → name = topic
  pushed : ∀ p ∈ s.pushes, p.su = su → PublishedBelow es topic p.msg

section Bus
variable {es fs : List StickyEvent} {s s' : Bus Q} {op : Op} {r : Ret} {su : SubId} {topic : Str}
  {x : MsgId}

theorem traced_init : Traced [] (Bus.init : Bus Q) := by
  refine ⟨init_ok, fun p hp => (nomatch hp), fun su S hS => ?_, fun t x hx => ?_⟩
  · cases hS
  · cases hx

theorem Traced.step (h : Traced es s) (hs : step s op = some (r, s')) :
    Traced (es ++ (stickyEvent s op).toList) s' := by
  obtain ⟨ps, hserves⟩ := step_serves h.ok hs
  refine ⟨(step_spec h.ok hs).ok, fun p hp => ?_, fun su S hS x hx => ?_, fun t x hx => ?_⟩
  · rw [hserves.pushes, List.mem_append] at hp
    rcases hp with hp | hp
    · exact Nat.lt_of_lt_of_le (h.known p hp) hserves.next
    · exact hserves.known p hp
  · rw [hserves.pushes]
    rcases hserves.items su S hS x hx with ⟨S₀, hS₀, hx₀⟩ | ⟨p, hp, hpx⟩
    · obtain ⟨p, hp, hpx⟩ := h.queued su S₀ hS₀ x hx₀
      exact ⟨p, List.mem_append_left _ hp, hpx⟩
    · exact ⟨p, List.mem_append_right _ hp, hpx⟩
  · rw [step_stickyAt h.ok hs, afterEvent] at hx
    cases hev : stickyEvent s op with
    | none =>
      rw [hev] at hx
      simpa using h.sticky t x hx
    | some e =>
      rw [hev, Option.bind_some] at hx
      cases hw : e.writes t with
      | none =>
        rw [hw] at hx
        obtain ⟨b, hb⟩ := h.sticky t x hx
        exact ⟨b, List.mem_append_left _ hb⟩
      | some v =>
        rw [hw, Option.getD_some] at hx
        subst hx
        rw [writes_eq_some.mp hw]
        exact ⟨true, by simp⟩

theorem PublishedBelow.append (h : PublishedBelow es topic x) (fs : List StickyEvent) :
    PublishedBelow (es ++ fs) topic x := by
  obtain ⟨t, b, hmem, hanc⟩ := h
  exact ⟨t, b, List.mem_append_left _ hmem, hanc⟩

/-- Every push is of a message published on the topic of the subscription or below. -/
theorem Origin.publishedBelow {p : Push} (ht : Traced es s) (ho : Origin s op p) :
    PublishedBelow (es ++ (stickyEvent s op).toList) p.via p.msg := by
  cases ho with
  | @publish m t b hevent _ hvia _ => exact ⟨t, b, by simp [hevent], isAncestor_of_visited hvia⟩
  | replay hin =>
    obtain ⟨pre, sub, post, -, -, hrep⟩ := hin
    obtain ⟨t, hst, hor⟩ := hrep.sticky
    obtain ⟨b, hb⟩ := ht.sticky t p.msg hst
    refine ⟨t, b, List.mem_append_left _ hb, ?_⟩
    rw [hrep.via]
    rcases hor with htopic | ⟨-, hanc⟩
    · exact .inl htopic.symm
    · exact hanc

theorem Owns.step (h : Owns es s su topic) (ht : Traced es s) (hs : step s op = some (r, s'))
    (hreq : (requested s op).2 ≠ [] → (requested s op).1 ≠ su) :
    Owns (es ++ (stickyEvent s op).toList) s' su topic := by
  obtain ⟨ps, hserves⟩ := step_serves ht.ok hs
  obtain ⟨qs, hqs, horigin⟩ := step_adds ht.ok hs
  refine ⟨Nat.lt_of_lt_of_le h.known hserves.next, fun name hname => ?_, fun p hp hsu => ?_⟩
  · exact h.listed name (step_noneAdded ht.ok hreq hs name hname)
  · rw [hqs, List.mem_append] at hp
    rcases hp with hp | hp
    · exact (h.pushed p hp hsu).append _
    · have hvia : p.via = topic := by
        cases horigin p hp with
        | publish _ _ _ hlisted =>
          apply h.listed
          rw [← hsu]
          apply hlisted
          rw [hsu]
          exact Nat.ne_of_lt h.known
        | replay hin =>
          obtain ⟨pre, sub, post, hsubs, -, hrep⟩ := hin
          have hne : (requested s op).2 ≠ [] := by simp [hsubs]
          exact absurd (hrep.subscriber.symm.trans hsu) (hreq hne)
      rw [← hvia]
      exact (horigin p hp).publishedBelow ht

/-- A new subscriber of one topic owns it. -/
theorem owns_of_new {queueSize : ℕ} (ht : Traced es s) (htopic : ' ' ∉ topic)
    (hs : step s (.newSubscriber queueSize (some [topic])) = some (.subscriber su, s')) :
    Owns es s' su topic := by
  obtain ⟨⟨su', s''⟩, hnew, heq⟩ := Option.map_eq_some_iff.mp hs
  cases heq
  obtain ⟨ps, hserves, hsu, hlt, -⟩ := psNewSubscriber_serves ht.ok hnew
  obtain ⟨qs, hqs, horigin⟩ := step_adds ht.ok hs
  refine ⟨hlt, fun name hname => ?_, fun p hp hpsu => ?_⟩
  · obtain ⟨-, n, s₁, hmany, rfl⟩ := psNewSubscriber_eq_some hnew
    simp only [psSubscribeMany, countOks, Option.bind_eq_bind, Option.bind_eq_some_iff] at hmany
    obtain ⟨⟨r, s₂⟩, hsub, ⟨k, s₃⟩, hnil, heq⟩ := hmany
    cases hnil
    cases heq
    have hok := (addSubscriber_quiet ht.ok queueSize).ok
    have hnot : s.subscribers.next ∉ (entriesAt s.topicMap name).map SubscriberList.su :=
      not_listed_of_dead ht.ok (Cells.get_next _)
    rcases ((psSubscribeFlags_adds hok hsub).2 name).mp (hsu ▸ hname) with hold | htop
    · exact absurd hold hnot
    · rw [htop, cutFlags_eq_self htopic]
  · rw [hqs, List.mem_append] at hp
    rcases hp with hp | hp
    · have hold := ht.known p hp
      rw [hpsu, hsu] at hold
      exact absurd hold (Nat.lt_irrefl _)
    · have hvia : p.via = topic := by
        cases horigin p hp with
        | publish hevent _ _ _ => cases hevent
        | replay hin =>
          obtain ⟨pre, sub, post, hsubs, -, hrep⟩ := hin
          have hmem : sub ∈ [(topic, (none : Option PsSubFlags))] := by
            simp [show [(topic, (none : Option PsSubFlags))] = pre ++ sub :: post from hsubs]
          rw [hrep.via, List.mem_singleton.mp hmem, cutFlags_eq_self htopic]
      have hbelow := (horigin p hp).publishedBelow ht
      rw [hvia] at hbelow
      simpa [stickyEvent] using hbelow

/-- A publish leaves the queue of a subscriber that no visited topic lists. -/
theorem Published.queue_eq {msg : MsgId} {n : ℕ} {m : PsMsg} {as : List Attempt} {s₀ s₁ : Bus Q}
    (h : Published s msg n s' m topic as s₀ s₁)
    (hsu : ∀ name ∈ visited m topic, su ∉ (entriesAt s.topicMap name).map SubscriberList.su) :
    queuesOf s'.subscribers su = queuesOf s.subscribers su := by
  refine offers_other h.offers fun e he hes => ?_
  obtain ⟨name, hname, hentry⟩ := List.mem_flatMap.mp he
  obtain ⟨sl, hsl, rfl⟩ := List.mem_map.mp hentry
  exact hsu name hname (hes ▸ List.mem_map_of_mem hsl)

end Bus

/-! ### One step of a call -/

namespace Call
variable {s : Bus Q} {call call' : Call} {op : Op} {r : Ret} {su : SubId} {x : MsgId}

theorem after_n (h : call.after r = some call') : call'.n = call.n := by
  obtain ⟨msg, timeout, n, stage⟩ := call
  cases stage with
  | subscribed su =>
    cases r with
    | int k =>
      simp only [after] at h
      split at h <;> cases h <;> rfl
    | _ => cases h
  | _ => cases r <;> cases h <;> rfl

/-- A call gets its subscriber from `ps_new_subscriber` and keeps it until it frees it. -/
theorem after_su (hop : call.next = some op) (h : call.after r = some call')
    (hsu : call'.su = some su) : call.su = some su ∨
      (op = .newSubscriber 1 (some [callTopic call.n]) ∧ r = .subscriber su) := by
  obtain ⟨msg, timeout, n, stage⟩ := call
  cases stage with
  | counted =>
    cases r <;> cases h
    cases hsu
  | addressed =>
    cases r <;> cases h
    cases hop
    cases hsu
    exact .inr ⟨rfl, rfl⟩
  | subscribed su' =>
    cases r with
    | int k =>
      simp only [after] at h
      split at h <;> cases h <;> exact .inl hsu
    | _ => cases h
  | waiting su' =>
    cases r <;> cases h
    exact .inl hsu
  | leaving su' ret =>
    cases r <;> cases h
    cases hsu
  | returned ret => cases hop

/-- A call gets its message from `ps_get`. -/
theorem after_retMsg (hop : call.next = some op) (h : call.after r = some call')
    (hx : call'.retMsg = some x) : call.retMsg = some x ∨
      ∃ su, call.su = some su ∧ op = .get su call.timeout ∧ r = .msg (some x) := by
  obtain ⟨msg, timeout, n, stage⟩ := call
  cases stage with
  | counted =>
    cases r <;> cases h
    cases hx
  | addressed =>
    cases r <;> cases h
    cases hx
  | subscribed su' =>
    cases r with
    | int k =>
      simp only [after] at h
      split at h <;> cases h <;> cases hx
    | _ => cases h
  | waiting su' =>
    cases r <;> cases h
    cases hop
    cases hx
    exact .inr ⟨su', rfl, rfl, rfl⟩
  | leaving su' ret =>
    cases r <;> cases h
    exact .inl hx
  | returned ret => cases hop

/-- A call requests subscriptions for a new subscriber only. -/
theorem requested_ne (hop : call.next = some op) (hsu : su < s.subscribers.next) :
    (requested s op).2 ≠ [] → (requested s op).1 ≠ su := by
  obtain ⟨msg, timeout, n, stage⟩ := call
  cases stage <;> cases hop
  case addressed => exact fun _ => (Nat.ne_of_lt hsu).symm
  all_goals exact fun h => absurd rfl h

theorem next_ne_call (hop : call.next = some op) (msg : MsgId) (timeout : Int64) :
    op ≠ .call msg timeout := by
  rintro rfl
  obtain ⟨msg', timeout', n, stage⟩ := call
  cases stage <;> cases hop

end Call

/-- A client requests subscriptions for the subscriber that it passes, or a new one. -/
theorem requested_ne_of_subscriber {s : Bus Q} {op : Op} {su : SubId} (hop : op.subscriber ≠ some su)
    (hsu : su < s.subscribers.next) : (requested s op).2 ≠ [] → (requested s op).1 ≠ su := by
  have hnext : s.subscribers.next ≠ su := (Nat.ne_of_lt hsu).symm
  intro h
  cases op
  case newSubscriber => exact hnext
  case call => exact hnext
  case waitOne => exact hnext
  case subscribe => exact fun h => hop (congrArg some h)
  case subscribeFlags => exact fun h => hop (congrArg some h)
  case subscribeMany => exact fun h => hop (congrArg some h)
  all_goals exact absurd rfl h

/-! ### Runs of calls -/

namespace Calls
variable {c c' : Calls Q} {a : Action} {e : Option StickyEvent} {es : List StickyEvent}

theorem step_eq_some (h : c.step a = some (e, c')) :
    c.permits a = true ∧ c.answers e = true ∧ c.act a = some (e, c') := by
  obtain ⟨⟨e₁, c₁⟩, hact, h⟩ := Option.bind_eq_some_iff.mp h
  dsimp only at h
  split at h
  case isTrue hand =>
    cases h
    rw [Bool.and_eq_true] at hand
    exact ⟨hand.1, hand.2, hact⟩
  case isFalse => cases h

/-- What an action can do. -/
theorem act_cases (h : c.act a = some (e, c')) :
    (∃ op r s', a = .client op ∧ PubSub.step c.bus op = some (r, s') ∧
      e = stickyEvent c.bus op ∧ c' = ⟨s', c.calls⟩) ∨
    (∃ msg timeout, e = none ∧ c' = ⟨{ c.bus with uuidCtr := c.bus.uuidCtr + 1 },
      c.calls ++ [⟨msg, timeout, c.bus.uuidCtr + 1, .counted⟩]⟩) ∨
    (∃ i call call' op r s', c.calls[i]? = some call ∧ call.next = some op ∧
      PubSub.step c.bus op = some (r, s') ∧ call.after r = some call' ∧
      e = stickyEvent c.bus op ∧ c' = ⟨s', c.calls.set i call'⟩) := by
  cases a with
  | client op =>
    obtain ⟨⟨⟨r, e₁⟩, s'⟩, hlog, heq⟩ := Option.map_eq_some_iff.mp h
    cases heq
    obtain ⟨hs, hev⟩ := (logStep_eq_some (e := (op, r, _))).mp hlog
    exact .inl ⟨op, r, s', rfl, hs, hev, rfl⟩
  | start msg timeout =>
    cases h
    exact .inr (.inl ⟨msg, timeout, rfl, rfl⟩)
  | advance i =>
    simp only [act, Option.bind_eq_bind, Option.bind_eq_some_iff] at h
    obtain ⟨call, hcall, op, hop, ⟨⟨r, e₁⟩, s'⟩, hlog, call', hafter, heq⟩ := h
    cases heq
    obtain ⟨hs, hev⟩ := (logStep_eq_some (e := (op, r, _))).mp hlog
    exact .inr (.inr ⟨i, call, call', op, r, s', hcall, hop, hs, hafter, hev, rfl⟩)

/-- The numbers that the calls took from the counter. -/
def numbers (c : Calls Q) : List UInt32 := c.calls.map Call.n

/-- The invariant of the calls after the events `es`. -/
structure Correlated (es : List StickyEvent) (c : Calls Q) : Prop where
  traced : Traced es c.bus
  counter : c.bus.uuidCtr = UInt32.ofNat c.calls.length
  number : c.numbers = (List.range c.calls.length).map fun i => UInt32.ofNat (i + 1)
  answered : ∀ x t b, .publish x t b ∈ es → callPrefix <+: t → ∃ n ∈ c.numbers, t = callTopic n
  own : ∀ call ∈ c.calls, ∀ su, call.su = some su → Owns es c.bus su (callTopic call.n)
  got : ∀ call ∈ c.calls, ∀ x, call.retMsg = some x → PublishedBelow es (callTopic call.n) x

theorem answers_iff : c.answers e = true ↔ ∀ x t b, e = some (.publish x t b) → callPrefix <+: t →
    ∃ n ∈ c.numbers, t = callTopic n := by
  rcases e with - | ⟨x, t, b⟩ | pre
  · simp [answers]
  · simp only [answers, Bool.or_eq_true, Bool.not_eq_true', List.any_eq_true, decide_eq_true_eq,
      Option.some.injEq, StickyEvent.publish.injEq, numbers, List.mem_map, ← Bool.not_eq_true,
      List.isPrefixOf_iff_prefix]
    constructor
    · rintro h x' t' b' ⟨rfl, rfl, rfl⟩ hpre
      obtain ⟨call, hcall, rfl⟩ := h.resolve_left (not_not_intro hpre)
      exact ⟨call.n, ⟨call, hcall, rfl⟩, rfl⟩
    · intro h
      by_cases hpre : callPrefix <+: t
      · obtain ⟨-, ⟨call, hcall, rfl⟩, rfl⟩ := h x t b ⟨rfl, rfl, rfl⟩ hpre
        exact .inr ⟨call, hcall, rfl⟩
      · exact .inl hpre
  · simp [answers]

/-- A call that goes on keeps its number. -/
theorem numbers_set {i : ℕ} {call call' : Call} {r : Ret} (s' : Bus Q)
    (hcall : c.calls[i]? = some call) (hafter : call.after r = some call') :
    numbers ⟨s', c.calls.set i call'⟩ = c.numbers := by
  obtain ⟨hi, hget⟩ := List.getElem?_eq_some_iff.mp hcall
  have hmap : i < (c.calls.map Call.n).length := by simpa using hi
  have hn : call.n = (c.calls.map Call.n)[i] := by rw [List.getElem_map, hget]
  rw [numbers, List.map_set, Call.after_n hafter, hn, List.set_getElem_self]
  rfl

namespace Correlated
variable {op : Op} {r : Ret} {s' : Bus Q}

/-- The topics published on after one more event are answers, if that event is one. -/
theorem answered_append (h : Correlated es c) (ha : c.answers e = true) {x : MsgId} {t : Str}
    {b : Bool} (hmem : .publish x t b ∈ es ++ e.toList) (hpre : callPrefix <+: t) :
    ∃ n ∈ c.numbers, t = callTopic n := by
  rcases List.mem_append.mp hmem with hold | hnew
  · exact h.answered x t b hold hpre
  · exact answers_iff.mp ha x t b (Option.mem_toList.mp hnew) hpre

theorem client (h : Correlated es c) (hp : c.permits (.client op) = true)
    (ha : c.answers (stickyEvent c.bus op) = true) (hs : PubSub.step c.bus op = some (r, s')) :
    Correlated (es ++ (stickyEvent c.bus op).toList) ⟨s', c.calls⟩ := by
  have hcall : ∀ msg timeout, op ≠ .call msg timeout := by
    rintro msg timeout rfl
    cases hp
  have hprivate : ∀ call ∈ c.calls, ∀ su, call.su = some su → op.subscriber ≠ some su := by
    intro call hmem su hsu
    unfold permits at hp
    split at hp
    case h_1 => cases hp
    case h_2 heq =>
      cases heq
      have hall := List.all_eq_true.mp hp call hmem
      rw [hsu, Option.all_some, decide_eq_true_eq] at hall
      exact hall
    case h_3 hne => exact absurd rfl (hne op)
  refine ⟨h.traced.step hs, (step_uuidCtr h.traced.ok hcall hs).trans h.counter, h.number,
    fun x t b => h.answered_append ha, fun call hmem su hsu => ?_, fun call hmem x hx => ?_⟩
  · have hown := h.own call hmem su hsu
    exact hown.step h.traced hs (requested_ne_of_subscriber (hprivate call hmem su hsu) hown.known)
  · exact (h.got call hmem x hx).append _

theorem start (h : Correlated es c) (msg : MsgId) (timeout : Int64) :
    Correlated es ⟨{ c.bus with uuidCtr := c.bus.uuidCtr + 1 },
      c.calls ++ [⟨msg, timeout, c.bus.uuidCtr + 1, .counted⟩]⟩ := by
  have hn : c.bus.uuidCtr + 1 = UInt32.ofNat (c.calls.length + 1) := by
    rw [h.counter, UInt32.ofNat_add]
    rfl
  have htraced := h.traced
  refine ⟨⟨⟨htraced.ok.names, htraced.ok.alive, htraced.ok.links, htraced.ok.statOk⟩,
    htraced.known, htraced.queued, htraced.sticky⟩, ?_, ?_, fun x t b hmem hpre => ?_,
    fun call hmem su hsu => ?_, fun call hmem x hx => ?_⟩
  · rw [List.length_append]
    exact hn
  · have hnum := h.number
    simp only [numbers, List.map_append, List.length_append, List.length_singleton,
      List.range_succ] at hnum ⊢
    rw [hnum, List.map_singleton, List.map_singleton, ← hn]
  · obtain ⟨n, hmem, heq⟩ := h.answered x t b hmem hpre
    exact ⟨n, by simp only [numbers, List.map_append]; exact List.mem_append_left _ hmem, heq⟩
  · rcases List.mem_append.mp hmem with hold | hnew
    · have hown := h.own call hold su hsu
      exact ⟨hown.known, hown.listed, hown.pushed⟩
    · rw [List.mem_singleton.mp hnew] at hsu
      cases hsu
  · rcases List.mem_append.mp hmem with hold | hnew
    · exact h.got call hold x hx
    · rw [List.mem_singleton.mp hnew] at hx
      cases hx

/-- What a call gets out of its queue was published on its `rtopic` or below. -/
theorem of_get {call : Call} {su : SubId} {timeout : Int64} {x : MsgId} (h : Correlated es c)
    (hmem : call ∈ c.calls) (hsu : call.su = some su)
    (hs : PubSub.step c.bus (.get su timeout) = some (.msg (some x), s')) :
    PublishedBelow es (callTopic call.n) x := by
  obtain ⟨⟨msg, s''⟩, hget, heq⟩ := Option.map_eq_some_iff.mp hs
  cases heq
  obtain ⟨S, q, hS, hq, -⟩ := psGet_eq_some.mp hget
  rcases IdleQueue.pull_spec hq with ⟨hnone, -, -⟩ | ⟨y, hy, -, hitems⟩
  · cases hnone
  · cases hy
    obtain ⟨p, hp, hpsu, rfl⟩ := h.traced.queued su S hS x (by rw [hitems]; exact List.mem_cons_self)
    exact (h.own call hmem su hsu).pushed p hp hpsu

theorem advance {i : ℕ} {call call' : Call} (h : Correlated es c)
    (ha : c.answers (stickyEvent c.bus op) = true) (hcall : c.calls[i]? = some call)
    (hop : call.next = some op) (hs : PubSub.step c.bus op = some (r, s'))
    (hafter : call.after r = some call') :
    Correlated (es ++ (stickyEvent c.bus op).toList) ⟨s', c.calls.set i call'⟩ := by
  have hcallMem : call ∈ c.calls := List.mem_of_getElem? hcall
  have hown : ∀ x ∈ c.calls, ∀ su, x.su = some su →
      Owns (es ++ (stickyEvent c.bus op).toList) s' su (callTopic x.n) := fun x hx su hsu =>
    have hown := h.own x hx su hsu
    hown.step h.traced hs (Call.requested_ne hop hown.known)
  refine ⟨h.traced.step hs, ?_, ?_, fun x t b hmem hpre => ?_, fun x hx su hsu => ?_,
    fun x hx y hy => ?_⟩
  · rw [List.length_set]
    exact (step_uuidCtr h.traced.ok (Call.next_ne_call hop) hs).trans h.counter
  · rw [numbers_set s' hcall hafter, List.length_set]
    exact h.number
  · rw [numbers_set s' hcall hafter]
    exact h.answered_append ha hmem hpre
  · rcases List.mem_or_eq_of_mem_set hx with hold | rfl
    · exact hown x hold su hsu
    · rw [Call.after_n hafter]
      rcases Call.after_su hop hafter hsu with hsame | ⟨rfl, rfl⟩
      · exact hown call hcallMem su hsame
      · have hnew := owns_of_new h.traced (space_not_mem_callTopic call.n) hs
        simpa [stickyEvent] using hnew
  · rcases List.mem_or_eq_of_mem_set hx with hold | rfl
    · exact (h.got x hold y hy).append _
    · rw [Call.after_n hafter]
      rcases Call.after_retMsg hop hafter hy with hsame | ⟨su, hsu, rfl, rfl⟩
      · exact (h.got call hcallMem y hsame).append _
      · exact (h.of_get hcallMem hsu hs).append _

/-- Every action keeps the invariant. -/
theorem step (h : Correlated es c) (hs : c.step a = some (e, c')) : Correlated (es ++ e.toList) c' := by
  obtain ⟨hp, ha, hact⟩ := step_eq_some hs
  rcases act_cases hact with ⟨op, r, s', rfl, hop, rfl, rfl⟩ | ⟨msg, timeout, rfl, rfl⟩ |
    ⟨i, call, call', op, r, s', hcall, hnext, hop, hafter, rfl, rfl⟩
  · exact h.client hp ha hop
  · rw [Option.toList_none, List.append_nil]
    exact h.start msg timeout
  · exact h.advance ha hcall hnext hop hafter

/-- What was published on the `rtopic` of a call or below was published on it. -/
theorem publish_of_below {call : Call} {x : MsgId} (h : Correlated es c)
    (hx : PublishedBelow es (callTopic call.n) x) : ∃ b, .publish x (callTopic call.n) b ∈ es := by
  obtain ⟨t, b, hmem, hanc⟩ := hx
  obtain ⟨n, -, rfl⟩ := h.answered x t b hmem (callPrefix_of_isAncestor hanc)
  obtain rfl := callTopic_isAncestor hanc
  exact ⟨b, hmem⟩

/-- Two calls have two numbers while the counter has not come round. -/
theorem index_eq {i j : ℕ} {call other : Call} (h : Correlated es c) (hlt : c.calls.length < 2 ^ 32)
    (hi : c.calls[i]? = some call) (hj : c.calls[j]? = some other) (hn : other.n = call.n) :
    j = i := by
  have hnumber : ∀ {k : ℕ} {call : Call}, c.calls[k]? = some call → call.n.toNat = k + 1 := by
    intro k call hk
    have hlen : k < c.calls.length := (List.getElem?_eq_some_iff.mp hk).1
    have hmap : c.numbers[k]? = some call.n := by rw [numbers, List.getElem?_map, hk, Option.map_some]
    rw [h.number, List.getElem?_map, List.getElem?_range hlen, Option.map_some] at hmap
    rw [← Option.some.inj hmap, UInt32.toNat_ofNat', Nat.mod_eq_of_lt (by omega)]
  have hi := hnumber hi
  have hj := hnumber hj
  rw [hn] at hj
  omega

/-- A publish on any topic but the `rtopic` of a call leaves its queue. -/
theorem queue_eq {call : Call} {su : SubId} {x : MsgId} {t : Str} {b : Bool} (h : Correlated es c)
    (hs : c.step a = some (some (.publish x t b), c')) (hmem : call ∈ c.calls)
    (hsu : call.su = some su) (hne : t ≠ callTopic call.n) :
    queuesOf c'.bus.subscribers su = queuesOf c.bus.subscribers su := by
  obtain ⟨hp, ha, hact⟩ := step_eq_some hs
  have hpublish : ∀ {op : Op} {r : Ret} {s' : Bus Q}, (∀ msg timeout, op ≠ .call msg timeout) →
      PubSub.step c.bus op = some (r, s') → some (.publish x t b) = stickyEvent c.bus op →
      queuesOf s'.subscribers su = queuesOf c.bus.subscribers su := by
    intro op r s' hop hs hev
    cases op
    case publish msg =>
      cases msg with
      | none => cases hev
      | some msg =>
        obtain ⟨⟨n, s''⟩, hpub, heq⟩ := Option.map_eq_some_iff.mp hs
        cases heq
        obtain ⟨m, topic, as, s₀, s₁, hpub⟩ :=
          psPublish_published h.traced.ok.names h.traced.ok.alive hpub
        obtain ⟨msgTopic, htopic, rfl⟩ := hpub.topic_eq
        have hev' : some (.publish x t b) = publishEvent c.bus msg := hev
        rw [publishEvent_of_get hpub.get htopic] at hev'
        cases hev'
        apply hpub.queue_eq
        intro name hname hlisted
        -- a visited topic that lists the caller is its `rtopic`, so the topic is an answer
        have hanc := isAncestor_of_visited hname
        rw [(h.own call hmem su hsu).listed name hlisted] at hanc
        obtain ⟨n, -, htopic⟩ := answers_iff.mp ha _ _ _ rfl (callPrefix_of_isAncestor hanc)
        rw [htopic] at hanc
        rw [htopic, callTopic_isAncestor hanc] at hne
        exact hne rfl
    case call msg timeout => exact absurd rfl (hop msg timeout)
    all_goals cases hev
  rcases act_cases hact with ⟨op, r, s', rfl, hop, hev, rfl⟩ | ⟨msg, timeout, hev, -⟩ |
    ⟨i, call', call'', op, r, s', hcall, hnext, hop, hafter, hev, rfl⟩
  · refine hpublish ?_ hop hev
    rintro msg timeout rfl
    cases hp
  · cases hev
  · exact hpublish (Call.next_ne_call hnext) hop hev

end Correlated

/-- The events of a run, oldest first. -/
def events (h : List (Action × Option StickyEvent)) : List StickyEvent := h.filterMap Prod.snd

theorem Runs.correlated {h : List (Action × Option StickyEvent)} (hr : Runs h c) :
    Correlated (events h) c := by
  refine Run.history (P := fun h c => Correlated (events h) c) ?_ (fun h c e c' _ ih hs => ?_) hr
  · refine ⟨traced_init, rfl, rfl, fun x t b hmem => ?_, fun call hmem => ?_, fun call hmem => ?_⟩
    · cases hmem
    · cases hmem
    · cases hmem
  · have hevents : events (h ++ [e]) = events h ++ e.2.toList := by
      cases he : e.2 <;> simp [events, he]
    rw [hevents]
    exact ih.step hs

/-- A call returns nothing but messages published on its own `rtopic`, which no other
call of the run has. A publish on any other topic leaves its queue, and one on the
`rtopic` of a call that has returned leaves the queues of all callers. -/
theorem replies_correlated {h : List (Action × Option StickyEvent)} {c : Calls Q} (hr : Runs h c)
    (hlt : c.calls.length < 2 ^ 32) :
    (∀ (i : ℕ) (call : Call) x, c.calls[i]? = some call → call.stage = .returned (some x) →
      (∃ b, .publish x (callTopic call.n) b ∈ events h) ∧
      ∀ (j : ℕ) (other : Call), c.calls[j]? = some other → j ≠ i → callTopic other.n ≠ callTopic call.n) ∧
    (∀ a x t b c', c.step a = some (some (.publish x t b), c') →
      ∀ call ∈ c.calls, ∀ su, call.su = some su → t ≠ callTopic call.n →
        queuesOf c'.bus.subscribers su = queuesOf c.bus.subscribers su) ∧
    (∀ call ∈ c.calls, ∀ ret, call.stage = .returned ret →
      ∀ a x b c', c.step a = some (some (.publish x (callTopic call.n) b), c') →
        ∀ other ∈ c.calls, ∀ su, other.su = some su →
          queuesOf c'.bus.subscribers su = queuesOf c.bus.subscribers su) := by
  have hc := hr.correlated
  refine ⟨fun i call x hcall hstage => ⟨?_, fun j other hother hne htopic => ?_⟩,
    fun a x t b c' hs call hmem su hsu hne => hc.queue_eq hs hmem hsu hne,
    fun call hmem ret hstage a x b c' hs other hother su hsu => ?_⟩
  · have hret : call.retMsg = some x := by rw [Call.retMsg, hstage]
    exact hc.publish_of_below (hc.got call (List.mem_of_getElem? hcall) x hret)
  · exact hne (hc.index_eq hlt hcall hother (callTopic_injective htopic))
  · refine hc.queue_eq hs hother hsu fun htopic => ?_
    -- the two calls would be one, which has returned and has no subscriber
    obtain ⟨i, hi, hcall⟩ := List.getElem_of_mem hmem
    obtain ⟨j, hj, hother⟩ := List.getElem_of_mem hother
    have hji : j = i := hc.index_eq hlt (List.getElem?_eq_some_iff.mpr ⟨hi, hcall⟩)
      (List.getElem?_eq_some_iff.mpr ⟨hj, hother⟩) (callTopic_injective htopic).symm
    subst hji
    rw [← hother, hcall, Call.su, hstage] at hsu
    cases hsu

/-- Three calls under way: the first gives up, the second is answered and the third
waits when the answer to the first is ready. -/
def crossing : List Action :=
  [.client (.newSubscriber 3 (some ["svc".toList])),
    .client (.newMsg (some "svc".toList) 0x800 .nil), .client (.newMsg (some "svc".toList) 0x800 .nil),
    .client (.newMsg (some "svc".toList) 0x800 .nil), .start 0 0, .start 1 (-1), .start 2 (-1),
    .advance 0, .advance 1, .advance 2, .advance 1, .advance 0, .advance 2,
    .advance 2, .advance 1, .advance 0, .advance 0, .advance 0,
    .client (.newMsg (some "$r.2".toList) 0x800 .nil), .client (.publish (some 3)),
    .advance 1, .advance 1, .client (.newMsg (some "$r.1".toList) 0x800 .nil)]

theorem crossing_exec : (exec (step (Q := Bucket.Queue)) crossing init).map (fun x =>
      (x.2.calls, (x.2.step (.client (.publish (some 4)))).map Prod.fst)) =
    some ([⟨0, 0, 1, .returned none⟩, ⟨1, -1, 2, .returned (some 3)⟩, ⟨2, -1, 3, .waiting 3⟩],
      some (some (.publish 4 "$r.1".toList false))) := by
  decide +kernel

/-- The late answer to the first call is queued to no caller. -/
theorem replies_correlated_crossing : ∃ es, ∃ c c' : Calls Bucket.Queue,
    exec step crossing init = some (es, c) ∧
    c.calls = [⟨0, 0, 1, .returned none⟩, ⟨1, -1, 2, .returned (some 3)⟩, ⟨2, -1, 3, .waiting 3⟩] ∧
    (∃ b, .publish 3 "$r.2".toList b ∈ events (crossing.zip es)) ∧
    c.step (.client (.publish (some 4))) = some (some (.publish 4 "$r.1".toList false), c') ∧
    queuesOf c'.bus.subscribers 3 = queuesOf c.bus.subscribers 3 := by
  obtain ⟨⟨es, c⟩, hexec, hvals⟩ := Option.map_eq_some_iff.mp crossing_exec
  obtain ⟨hcalls, hlate⟩ := Prod.mk.inj hvals
  dsimp only at hcalls hlate
  obtain ⟨⟨e, c'⟩, hstep, rfl⟩ := Option.map_eq_some_iff.mp hlate
  have hcorrelated := replies_correlated (run_of_exec hexec) (by rw [hcalls]; decide)
  refine ⟨es, c, c', hexec, hcalls, ?_, hstep, ?_⟩
  · obtain ⟨⟨b, hb⟩, -⟩ :=
      hcorrelated.1 1 ⟨1, -1, 2, .returned (some 3)⟩ 3 (by rw [hcalls]; rfl) rfl
    exact ⟨b, hb⟩
  · exact hcorrelated.2.2 ⟨0, 0, 1, .returned none⟩ (by rw [hcalls]; decide) none rfl
      (.client (.publish (some 4))) 4 false c' hstep ⟨2, -1, 3, .waiting 3⟩
      (by rw [hcalls]; decide) 3 rfl

end Calls

end PubSub
