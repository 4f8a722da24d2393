import PubSub.Accounts
import PubSub.Bus.Flow
import PubSub.Calls
import PubSub.Queue.Bucket
import PubSub.Room

/-! Subscribers with `on_empty` subscriptions only. `ps_publish` looks at what waits
before each push; the replay of sticky messages to a new subscription does not. -/

namespace PubSub

open Lib Bus

variable {Q : Type → Type} [PsQueue Q] [LawfulPsQueue Q]

/-! ### Pushes to an empty queue -/

/-- With `w` messages that wait before the first push, every push to `x` is made while
none wait. -/
def WhenEmpty (x : SubId) : ℕ → List Push → Prop
  | _, [] => True
  | w, p :: ps => (p.su = x → w = 0) ∧ WhenEmpty x (w + arrivals x [p]) ps

/-- A queue of `cap` places has stored what it had room for. -/
def Answered (x : SubId) (cap : ℕ) : ℕ → List Push → Prop
  | _, [] => True
  | w, p :: ps => (p.su = x → (p.ret = .ok ↔ w < cap)) ∧ Answered x cap (w + arrivals x [p]) ps

section Lists
variable {x : SubId} {cap w : ℕ} {p : Push} {ps qs : List Push}

theorem arrivals_singleton_le (x : SubId) (p : Push) : arrivals x [p] ≤ 1 := List.countP_le_length

theorem arrivals_cons (x : SubId) (p : Push) (ps : List Push) :
    arrivals x (p :: ps) = arrivals x [p] + arrivals x ps := arrivals_append x [p] ps

theorem whenEmpty_append :
    WhenEmpty x w (ps ++ qs) ↔ WhenEmpty x w ps ∧ WhenEmpty x (w + arrivals x ps) qs := by
  induction ps generalizing w with
  | nil => simp [WhenEmpty]
  | cons p ps ih =>
    simp only [List.cons_append, WhenEmpty, ih]
    rw [arrivals_cons x p ps, Nat.add_assoc, and_assoc]

theorem answered_append (h₁ : Answered x cap w ps) (h₂ : Answered x cap (w + arrivals x ps) qs) :
    Answered x cap w (ps ++ qs) := by
  induction ps generalizing w with
  | nil => exact h₂
  | cons p ps ih =>
    rw [arrivals_cons x p ps, ← Nat.add_assoc] at h₂
    exact ⟨h₁.1, ih h₁.2 h₂⟩

theorem whenEmpty_of_others (h : ∀ p ∈ ps, p.su ≠ x) : WhenEmpty x w ps := by
  induction ps generalizing w with
  | nil => trivial
  | cons p ps ih =>
    obtain ⟨hp, hps⟩ := List.forall_mem_cons.mp h
    exact ⟨fun heq => absurd heq hp, ih hps⟩

/-- At most one message waits after such pushes. -/
theorem WhenEmpty.le_one (h : WhenEmpty x w ps) (hw : w ≤ 1) : w + arrivals x ps ≤ 1 := by
  induction ps generalizing w with
  | nil => exact hw
  | cons p ps ih =>
    have hnext : w + arrivals x [p] ≤ 1 := by
      by_cases hp : p.su = x
      · have := arrivals_singleton_le x p
        have := h.1 hp
        omega
      · rw [arrivals_eq_zero (by simpa using hp)]
        exact hw
    have := ih h.2 hnext
    rw [arrivals_cons x p ps]
    omega

theorem Answered.none_arrives (h : Answered x 0 w ps) : arrivals x ps = 0 := by
  induction ps generalizing w with
  | nil => rfl
  | cons p ps ih =>
    have hlast : arrivals x [p] = 0 := by
      rw [arrivals, List.countP_eq_zero]
      intro q hq
      rw [List.mem_singleton.mp hq]
      simp only [Bool.and_eq_true, decide_eq_true_eq, not_and]
      intro hp
      rw [h.1 hp]
      exact Nat.not_lt_zero w
    rw [arrivals_cons x p ps, hlast, ih h.2]

theorem whenEmpty_of_noRoom (h : Answered x 0 0 ps) : WhenEmpty x 0 ps := by
  induction ps with
  | nil => trivial
  | cons p ps ih =>
    have hone : Answered x 0 0 [p] := ⟨h.1, trivial⟩
    have hrest := h.2
    rw [hone.none_arrives] at hrest
    refine ⟨fun _ => rfl, ?_⟩
    rw [hone.none_arrives]
    exact ih hrest

/-- Pushes to one subscriber that are not checked: the second one finds the first in the
queue, unless the queue has no place. -/
theorem whenEmpty_iff (h : Answered x cap w ps) (hps : ∀ p ∈ ps, p.su = x) :
    WhenEmpty x w ps ↔ ps.length = 0 ∨ w = 0 ∧ (ps.length ≤ 1 ∨ cap = 0) := by
  constructor
  · intro hempty
    cases ps with
    | nil => exact .inl rfl
    | cons p ps =>
      have hw := hempty.1 (hps p List.mem_cons_self)
      refine .inr ⟨hw, ?_⟩
      cases ps with
      | nil => exact .inl (Nat.le_refl 1)
      | cons p' ps =>
        have hnone := hempty.2.1 (hps p' (by simp))
        have hanswer := h.1 (hps p List.mem_cons_self)
        have hret : ¬ p.ret = .ok := by
          intro hret
          have harrives : arrivals x [p] = 1 := by simp [arrivals, hps p List.mem_cons_self, hret]
          omega
        rw [hanswer] at hret
        omega
  · rintro (hnil | ⟨rfl, hone | rfl⟩)
    · rw [List.length_eq_zero_iff.mp hnil]
      trivial
    · cases ps with
      | nil => trivial
      | cons p ps =>
        have hnil : ps = [] := by
          rw [List.length_cons] at hone
          exact List.length_eq_zero_iff.mp (by omega)
        subst hnil
        exact ⟨fun _ => rfl, trivial⟩
    · exact whenEmpty_of_noRoom h

end Lists

section Pushes
variable {s s' : Bus Q} {x : SubId} {ps : List Push}

/-- One push, seen from the queue that it is made to. -/
theorem PushStep.answered {p : Push} {S : PsSubscriber Q} (h : PushStep s p s')
    (hS : s.subscribers.get x = some S) : ∃ S', s'.subscribers.get x = some S' ∧
      S'.q.capacity = S.q.capacity ∧ S'.q.waiting = S.q.waiting + arrivals x [p] ∧
      Answered x S.q.capacity S.q.waiting [p] := by
  obtain ⟨cbs, hflow⟩ := h.flow (x := x)
  have hlive : (s'.subscribers.get x).isSome := by
    obtain ⟨S₀, evicted, q, ms₁, ms₂, ms₃, -, -, -, -, -, rfl⟩ := h
    rw [sameSubscribers_modify, hS]
    rfl
  obtain ⟨S', hS'⟩ := Option.isSome_iff_exists.mp hlive
  obtain ⟨-, hwaiting, -⟩ := hflow.live S S' hS hS'
  refine ⟨S', hS', h.serves.capacity x S S' hS hS', by omega, fun hp => ?_, trivial⟩
  obtain ⟨S₀, evicted, q, ms₁, ms₂, ms₃, hS₀, hq, -⟩ := h
  subst hp
  rw [hS] at hS₀
  cases hS₀
  have hpushed := (IdleQueue.push_spec hq).2
  rw [IdleQueue.waiting_eq]
  constructor
  · intro hret
    have hlen := hpushed.length
    rw [if_pos hret] at hlen
    have hle := q.length_le
    rw [(IdleQueue.push_spec hq).1] at hle
    omega
  · exact fun hlt => (hpushed.ok_of_lt hlt).1

theorem Bus.Pushes.answered {S : PsSubscriber Q} (h : s.Pushes ps s')
    (hS : s.subscribers.get x = some S) : ∃ S', s'.subscribers.get x = some S' ∧
      S'.q.capacity = S.q.capacity ∧ S'.q.waiting = S.q.waiting + arrivals x ps ∧
      Answered x S.q.capacity S.q.waiting ps := by
  induction h with
  | nil => exact ⟨S, hS, rfl, rfl, trivial⟩
  | snoc _ hp ih =>
    obtain ⟨S₁, hS₁, hcap₁, hw₁, ha₁⟩ := ih
    obtain ⟨S', hS', hcap, hw, ha⟩ := hp.answered hS₁
    rw [hcap₁, hw₁] at ha
    refine ⟨S', hS', hcap.trans hcap₁, ?_, answered_append ha₁ ha⟩
    rw [hw, hw₁, arrivals_append, Nat.add_assoc]

/-- The loop of `ps_publish` looks at the queue before each push. -/
theorem offers_whenEmpty {msg : MsgId} {qs qs' : Queues Q} {es : List (Str × SubscriberList)}
    {as : List Attempt} {q : IdleQueue Q MsgId} (h : offers msg es qs = some (as, qs'))
    (hes : ∀ e ∈ es, e.2.su = x → e.2.onEmpty = true) (hq : qs x = some q) :
    WhenEmpty x q.waiting (as.map (Attempt.push msg)) := by
  induction es generalizing qs as q with
  | nil =>
    cases h
    trivial
  | cons e es ih =>
    obtain ⟨as₁, as₂, qs₁, ho, hos, rfl⟩ := offers_cons_eq_some h
    obtain ⟨he, hes⟩ := List.forall_mem_cons.mp hes
    rw [List.map_append, whenEmpty_append]
    obtain ⟨q₀, hq₀, ⟨-, rfl, rfl⟩ | ⟨hskip, ret, evicted, q', hp, rfl, rfl⟩⟩ := offer_cases ho
    · exact ⟨trivial, ih hos hes hq⟩
    · by_cases hx : e.2.su = x
      · subst hx
        obtain rfl : q₀ = q := Option.some.inj (hq₀.symm.trans hq)
        have hlen := (IdleQueue.push_spec hp).2.length
        rw [← IdleQueue.waiting_eq, ← IdleQueue.waiting_eq] at hlen
        have hnext := ih hos hes (Function.update_self _ _ _)
        refine ⟨⟨fun _ => ?_, trivial⟩, ?_⟩
        · simpa [he rfl] using hskip
        · rw [hlen] at hnext
          simpa [arrivals, Attempt.push, List.countP_cons] using hnext
      · have hnone : ∀ p ∈ [Attempt.push msg ⟨e.1, e.2, ret⟩], p.su ≠ x := by
          simpa [Attempt.push] using hx
        refine ⟨whenEmpty_of_others hnone, ?_⟩
        rw [List.map_singleton, arrivals_eq_zero hnone]
        exact ih hos hes (by rw [Function.update_of_ne (Ne.symm hx), hq])

end Pushes

/-! ### The subscriptions that calls make -/

/-- The topics that list `su`. -/
def lists (s : Bus Q) (su : SubId) (name : Str) : Bool :=
  (entriesAt s.topicMap name).any fun sl => sl.su = su

/-- The requests of a list that make a subscription: not for a topic that is `listed`,
and for each other topic the first one. -/
def made (listed : Str → Bool) : List Request → List Request
  | [] => []
  | sub :: subs =>
    if listed (cutFlags sub.1) then made listed subs
    else sub :: made (fun t => listed t || t = cutFlags sub.1) subs

theorem made_cons (listed : Str → Bool) (sub : Request) (subs : List Request) :
    made listed (sub :: subs) =
      made listed [sub] ++ made (fun t => listed t || t = cutFlags sub.1) subs := by
  simp only [made]
  split
  case isTrue hin =>
    have hsame : (fun t => listed t || t = cutFlags sub.1) = listed := by
      funext t
      by_cases ht : t = cutFlags sub.1
      · rw [ht, hin]
        rfl
      · simp [ht]
    rw [hsame]
    rfl
  case isFalse => rfl

theorem lists_iff {s : Bus Q} {su : SubId} {name : Str} :
    lists s su name = true ↔ su ∈ (entriesAt s.topicMap name).map SubscriberList.su := mem_map_su.symm

/-- What a call does that makes the subscriptions `subs` of `su`. -/
structure Made (s : Bus Q) (su : SubId) (subs : List Request) (s' : Bus Q) (ps : List Push) :
    Prop where
  pushes : s'.pushes = s.pushes ++ ps
  own : ∀ p ∈ ps, p.su = su
  length : ps.length = replayCount s.topicMap subs
  entries : EntriesFrom s s' (Requested su subs)
  live : subs ≠ [] → (s.subscribers.get su).isSome
  answered : ∀ S, s.subscribers.get su = some S → ∃ S', s'.subscribers.get su = some S' ∧
    S'.q.capacity = S.q.capacity ∧ S'.q.waiting = S.q.waiting + arrivals su ps ∧
    Answered su S.q.capacity S.q.waiting ps

section Made
variable {s s' : Bus Q} {su : SubId} {r : ℤ} {n : ℕ}

theorem Made.none (hs : s'.pushes = s.pushes) (ht : s'.topicMap = s.topicMap)
    (hsubs : s'.subscribers = s.subscribers) : Made s su [] s' [] := by
  refine ⟨by rw [hs, List.append_nil], by simp, rfl, .of_topicMap ht, by simp, fun S hS => ?_⟩
  exact ⟨S, by rw [hsubs, hS], rfl, rfl, trivial⟩

theorem psSubscribeFlags_made {topic : Str} {pflags : Option PsSubFlags} (hok : s.Ok)
    (h : psSubscribeFlags s su topic pflags = some (r, s')) :
    ∃ ps, Made s su (made (lists s su) [(topic, pflags)]) s' ps := by
  rcases psSubscribeFlags_cases hok h with ⟨-, hin, rfl⟩ | ⟨-, s₁, ps, hsub⟩
  · refine ⟨[], ?_⟩
    rw [made, if_pos (lists_iff.mpr hin)]
    exact .none rfl rfl rfl
  · have hfresh : ¬ lists s su (cutFlags topic) = true := fun hin => hsub.fresh (lists_iff.mp hin)
    rw [made, if_neg hfresh, made]
    obtain ⟨S, tm, hS, hsubs⟩ := hsub.subscribers
    refine ⟨ps, by rw [hsub.pushes.pushes, hsub.rest.2.1], fun p hp => ?_, ?_,
      psSubscribeFlags_entries hok h, fun _ => by rw [hS]; rfl, fun S₀ hS₀ => ?_⟩
    · have hreq : p.request ∈ ps.map Push.request := List.mem_map_of_mem hp
      rw [hsub.requests] at hreq
      obtain ⟨msg, -, heq⟩ := List.mem_map.mp hreq
      exact (congrArg Prod.fst heq).symm
    · have hlen := congrArg List.length hsub.requests
      rw [List.length_map, List.length_map, length_replayed hsub.quiet.ok.names,
        (replayedTopics_perm hok.names hsub.quiet.ok.names hsub.quiet.sticky).length_eq] at hlen
      rw [hlen, replayCount, List.map_singleton, List.sum_singleton]
    · rw [hS] at hS₀
      cases hS₀
      have hS₁ : s₁.subscribers.get su = some { S with subs := S.subs ++ [tm] } := by
        rw [hsubs, Cells.get_modify_self, hS, Option.map_some]
      have hanswered := hsub.pushes.answered hS₁
      exact hanswered

/-- The topics that list the subscriber, after it has asked for one more. -/
theorem psSubscribeFlags_lists {topic : Str} {pflags : Option PsSubFlags} (hok : s.Ok)
    (h : psSubscribeFlags s su topic pflags = some (r, s')) :
    lists s' su = fun t => lists s su t || t = cutFlags topic := by
  funext t
  have hiff := (psSubscribeFlags_adds hok h).2 t
  rw [← lists_iff, ← lists_iff] at hiff
  rw [Bool.eq_iff_iff, hiff, Bool.or_eq_true, decide_eq_true_eq]

theorem Made.trans {a b c : Bus Q} {subs subs' : List Request} {ps qs : List Push} (ha : Names a.topicMap)
    (hb : Names b.topicMap) (hst : stickyAt b.topicMap = stickyAt a.topicMap)
    (hlive : ∀ x, (b.subscribers.get x).isSome = (a.subscribers.get x).isSome)
    (h₁ : Made a su subs b ps) (h₂ : Made b su subs' c qs) : Made a su (subs ++ subs') c (ps ++ qs) := by
  refine ⟨by rw [h₂.pushes, h₁.pushes, List.append_assoc], fun p hp => ?_, ?_, ?_, fun hne => ?_,
    fun S hS => ?_⟩
  · rcases List.mem_append.mp hp with hp | hp
    · exact h₁.own p hp
    · exact h₂.own p hp
  · rw [List.length_append, h₁.length, h₂.length, replayCount_eq ha hb hst, replayCount, replayCount,
      replayCount, List.map_append, List.sum_append]
  · refine (h₁.entries.imp fun name sl hsl => ?_).trans (h₂.entries.imp fun name sl hsl => ?_)
    · obtain ⟨sub, hsub, hname⟩ := hsl
      exact ⟨sub, List.mem_append_left _ hsub, hname⟩
    · obtain ⟨sub, hsub, hname⟩ := hsl
      exact ⟨sub, List.mem_append_right _ hsub, hname⟩
  · by_cases hsubs : subs = []
    · rw [← hlive]
      apply h₂.live
      intro hnil
      exact hne (by rw [hsubs, hnil, List.append_nil])
    · exact h₁.live hsubs
  · obtain ⟨S₁, hS₁, hcap₁, hw₁, ha₁⟩ := h₁.answered S hS
    obtain ⟨S', hS', hcap, hw, ha⟩ := h₂.answered S₁ hS₁
    rw [hcap₁, hw₁] at ha
    exact ⟨S', hS', hcap.trans hcap₁, by rw [hw, hw₁, arrivals_append, Nat.add_assoc],
      answered_append ha₁ ha⟩

theorem psSubscribeMany_made {subs : Option (List Str)} (hok : s.Ok)
    (h : psSubscribeMany s su subs = some (n, s')) :
    ∃ ps, Made s su (made (lists s su) ((subs.getD []).map fun x => (x, none))) s' ps := by
  refine psSubscribeMany_induct (R := fun topics _ s s' =>
    ∃ ps, Made s su (made (lists s su) (topics.map fun x => (x, none))) s' ps)
    (fun _ _ => ⟨[], .none rfl rfl rfl⟩) (fun topic topics r k a b c hok hab hbc => ?_) hok h
  obtain ⟨ps, hfirst⟩ := psSubscribeFlags_made hok hab
  obtain ⟨qs, hrest⟩ := hbc
  obtain ⟨hq, hsame⟩ := psSubscribeFlags_quiet hok hab
  refine ⟨ps ++ qs, ?_⟩
  have hall := hfirst.trans hok.names hq.ok.names hq.sticky hsame.live hrest
  rw [psSubscribeFlags_lists hok hab] at hall
  rw [List.map_cons, made_cons]
  exact hall

/-- A new subscriber starts with an empty queue. -/
theorem psNewSubscriber_made {queueSize : ℕ} {subs : Option (List Str)} (hok : s.Ok)
    (h : psNewSubscriber s queueSize subs = some (su, s')) : ∃ ps, s'.pushes = s.pushes ++ ps ∧
      (∀ p ∈ ps, p.su = su) ∧
      ps.length = replayCount s.topicMap
        (made (lists s su) ((subs.getD []).map fun x => (x, none))) ∧
      EntriesFrom s s' (Requested su (made (lists s su) ((subs.getD []).map fun x => (x, none)))) ∧
      Answered su queueSize 0 ps ∧
      ∃ S', s'.subscribers.get su = some S' ∧ S'.q.waiting = arrivals su ps := by
  obtain ⟨rfl, k, s₁, h₁, rfl⟩ := psNewSubscriber_eq_some h
  obtain ⟨ps, hmade⟩ := psSubscribeMany_made (addSubscriber_quiet hok queueSize).ok h₁
  have hnew : (addSubscriber s queueSize).subscribers.get s.subscribers.next =
      some (newSubscriber queueSize) := Cells.get_alloc_self _ _
  obtain ⟨S', hS', -, hw, ha⟩ := hmade.answered _ hnew
  have hzero : (newSubscriber queueSize : PsSubscriber Q).q.waiting = 0 := by
    simp [newSubscriber, IdleQueue.waiting_eq]
  have hcap : (newSubscriber queueSize : PsSubscriber Q).q.capacity = queueSize :=
    IdleQueue.capacity_new queueSize
  rw [hzero, hcap] at ha
  rw [hzero, Nat.zero_add] at hw
  exact ⟨ps, hmade.pushes, hmade.own, hmade.length, hmade.entries, ha, S', hS', hw⟩

end Made

/-! ### One call -/

/-- The requests of `su` in a call that make a subscription. -/
def madeBy (s : Bus Q) (su : SubId) (op : Op) : List Request :=
  if (requested s op).1 = su then made (lists s su) (requested s op).2 else []

/-- The call makes no subscription of `su` but `on_empty` ones. -/
def OnEmptyOnly (s : Bus Q) (su : SubId) (op : Op) : Prop :=
  ∀ sub ∈ madeBy s su op, (subFlags sub.1 sub.2).onEmpty = true

/-- The number of messages that the call sends to new subscriptions of `su`. -/
def replays (s : Bus Q) (su : SubId) (op : Op) : ℕ := replayCount s.topicMap (madeBy s su op)

/-- The messages that wait for `su`, if it exists. -/
def waitingIn (s : Bus Q) (su : SubId) : ℕ := (psWaiting s su).getD 0

/-- The size of the queue of `su`, or of the one that the call makes. -/
def sizeIn (s : Bus Q) (su : SubId) (op : Op) : ℕ :=
  match queuesOf s.subscribers su with
  | some q => q.capacity
  | none =>
    match op with
    | .newSubscriber queueSize _ => queueSize
    | _ => 1

/-- The call sends nothing to new subscriptions of `su`, or one message to its empty
queue. -/
def ReplaysAlone (s : Bus Q) (su : SubId) (op : Op) : Prop :=
  replays s su op = 0 ∨ waitingIn s su = 0 ∧ (replays s su op ≤ 1 ∨ sizeIn s su op = 0)

instance (s : Bus Q) (su : SubId) (op : Op) : Decidable (OnEmptyOnly s su op) :=
  inferInstanceAs (Decidable (∀ sub ∈ _, _))

instance (s : Bus Q) (su : SubId) (op : Op) : Decidable (ReplaysAlone s su op) :=
  inferInstanceAs (Decidable (_ ∨ _ ∧ (_ ∨ _)))

/-- The entries of `su` are `on_empty` ones. -/
def OnEmptyEntries (s : Bus Q) (su : SubId) : Prop :=
  ∀ name, ∀ sl ∈ entriesAt s.topicMap name, sl.su = su → sl.onEmpty = true

section Step
variable {s s' : Bus Q} {su : SubId} {op : Op} {r : Ret} {ps : List Push}

theorem replaysAlone_of_none (h : madeBy s su op = []) : ReplaysAlone s su op := by
  left
  rw [replays, h]
  rfl

theorem madeBy_of_ne (h : (requested s op).2 ≠ [] → (requested s op).1 ≠ su) : madeBy s su op = [] := by
  rw [madeBy]
  split
  case isTrue heq =>
    by_cases hnil : (requested s op).2 = []
    · rw [hnil]
      rfl
    · exact absurd heq (h hnil)
  case isFalse => rfl

theorem waitingIn_of_get {S : PsSubscriber Q} (hS : s.subscribers.get su = some S) :
    waitingIn s su = S.q.waiting := by
  rw [waitingIn, psWaiting, hS]
  rfl

theorem waitingIn_of_none (h : s.subscribers.get su = none) : waitingIn s su = 0 := by
  rw [waitingIn, psWaiting, h]
  rfl

theorem Made.whenEmpty_iff (h : Made s su (madeBy s su op) s' ps) :
    WhenEmpty su (waitingIn s su) ps ↔ ReplaysAlone s su op := by
  cases hS : s.subscribers.get su with
  | none =>
    have hmade : madeBy s su op = [] := by
      by_contra hne
      have hlive := h.live hne
      rw [hS] at hlive
      cases hlive
    have hlen := h.length
    rw [hmade] at hlen
    rw [List.length_eq_zero_iff.mp hlen]
    exact iff_of_true trivial (replaysAlone_of_none hmade)
  | some S =>
    obtain ⟨S', -, -, -, ha⟩ := h.answered S hS
    have hsize : sizeIn s su op = S.q.capacity := by
      unfold sizeIn
      rw [queuesOf, hS]
      rfl
    rw [ReplaysAlone, waitingIn_of_get hS, hsize, replays, ← h.length]
    exact PubSub.whenEmpty_iff ha h.own

/-- A call that neither publishes nor makes a subscription of `su` pushes nothing to it. -/
theorem step_pushes_others (hok : s.Ok) (hs : step s op = some (r, s'))
    (hreq : (requested s op).2 ≠ [] → (requested s op).1 ≠ su)
    (hev : ∀ msg t b, stickyEvent s op ≠ some (.publish msg t b)) :
    ∃ ps, s'.pushes = s.pushes ++ ps ∧
      (WhenEmpty su (waitingIn s su) ps ↔ ReplaysAlone s su op) := by
  obtain ⟨ps, hps, horigin⟩ := step_adds hok hs
  have hothers : ∀ p ∈ ps, p.su ≠ su := by
    intro p hp
    rcases horigin p hp with ⟨hevent, -, -, -⟩ | ⟨pre, sub, post, hsubs, -, hreplay⟩
    · exact absurd hevent (hev _ _ _)
    · rw [hreplay.subscriber]
      apply hreq
      rw [hsubs]
      simp
  exact ⟨ps, hps, iff_of_true (whenEmpty_of_others hothers)
    (replaysAlone_of_none (madeBy_of_ne hreq))⟩

theorem Published.whenEmpty {msg : MsgId} {n : ℕ} {m : PsMsg} {topic : Str} {as : List Attempt}
    {s₀ s₁ : Bus Q} (h : Published s msg n s' m topic as s₀ s₁) (hok : s.Ok)
    (he : OnEmptyEntries s su) : WhenEmpty su (waitingIn s su) (as.map (Attempt.push msg)) := by
  have hroute : ∀ e ∈ route s.topicMap m topic, ∃ name, e.2 ∈ entriesAt s.topicMap name := by
    intro e hmem
    obtain ⟨name, -, hentry⟩ := List.mem_flatMap.mp hmem
    obtain ⟨sl, hsl, rfl⟩ := List.mem_map.mp hentry
    exact ⟨name, hsl⟩
  cases hS : s.subscribers.get su with
  | none =>
    apply whenEmpty_of_others
    intro p hp
    obtain ⟨a, ha, rfl⟩ := List.mem_map.mp hp
    obtain ⟨name, hsl⟩ := hroute _ (offers_mem h.offers ha)
    have hlive := live_of_entry hok hsl
    rintro rfl
    have hnone : s.subscribers.get a.sl.su = none := hS
    rw [hnone] at hlive
    cases hlive
  | some S =>
    rw [waitingIn_of_get hS]
    apply offers_whenEmpty h.offers
    · intro e hmem hsu
      obtain ⟨name, hsl⟩ := hroute e hmem
      exact he name e.2 hsl hsu
    · exact queuesOf_eq_some.mpr ⟨S, hS, rfl⟩

theorem queuesOf_next (s : Bus Q) : queuesOf s.subscribers s.subscribers.next = none := by
  rw [queuesOf, Cells.get_next]
  rfl

/-- The subscriber that a call makes, with the size of its queue. -/
theorem whenEmpty_iff_of_new {k : ℕ} (hsize : sizeIn s s.subscribers.next op = k)
    (hown : ∀ p ∈ ps, p.su = s.subscribers.next)
    (hlen : ps.length = replays s s.subscribers.next op)
    (ha : Answered s.subscribers.next k 0 ps) :
    WhenEmpty s.subscribers.next (waitingIn s s.subscribers.next) ps ↔
      ReplaysAlone s s.subscribers.next op := by
  rw [ReplaysAlone, waitingIn_of_none (Cells.get_next _), hsize, ← hlen]
  exact PubSub.whenEmpty_iff ha hown

theorem flagText_callTopic (n : UInt32) : flagText (callTopic n) = none := by
  unfold flagText
  have hnil : (callTopic n).dropWhile (· ≠ ' ') = [] := by
    rw [List.dropWhile_eq_nil_iff]
    intro c hc
    rw [decide_eq_true_eq]
    rintro rfl
    exact space_not_mem_callTopic n hc
  rw [hnil]

/-- The temporary subscription of a `ps_call` is not an `on_empty` one. -/
theorem not_onEmptyOnly_call (hok : s.Ok) (msg : MsgId) (timeout : Int64) :
    ¬ OnEmptyOnly s s.subscribers.next (.call msg timeout) := by
  intro h
  have hlists : ¬ lists s s.subscribers.next (cutFlags (callTopic (s.uuidCtr + 1))) = true := by
    rw [lists_iff]
    intro hin
    obtain ⟨sl, hsl, heq⟩ := List.mem_map.mp hin
    have hlive := live_of_entry hok hsl
    rw [heq, Cells.get_next] at hlive
    cases hlive
  have hmade : madeBy s s.subscribers.next (.call msg timeout) =
      [(callTopic (s.uuidCtr + 1), none)] := by
    rw [madeBy, requested, if_pos rfl, made, if_neg hlists, made]
  have hflag := h (callTopic (s.uuidCtr + 1), none) (by rw [hmade]; simp)
  rw [subFlags, flagText_callTopic] at hflag
  cases hflag

theorem psNewSubscriber_live {x : SubId} {queueSize : ℕ} {subs : Option (List Str)} (hok : s.Ok)
    (h : psNewSubscriber s queueSize subs = some (x, s')) (hsu : su ≠ x) :
    (s'.subscribers.get su).isSome = (s.subscribers.get su).isSome := by
  obtain ⟨rfl, k, s₁, h₁, rfl⟩ := psNewSubscriber_eq_some h
  have hsame := (psSubscribeMany_quiet (addSubscriber_quiet hok queueSize).ok h₁).2.live su
  rwa [addSubscriber, Cells.get_alloc, if_neg hsu] at hsame

/-- What waits for the other subscribers is not touched when one is made. -/
theorem psNewSubscriber_waitingIn {x : SubId} {queueSize : ℕ} {subs : Option (List Str)} (hok : s.Ok)
    (h : psNewSubscriber s queueSize subs = some (x, s')) (hsu : su ≠ x) :
    waitingIn s' su = waitingIn s su := by
  obtain ⟨ps, cbs, hflow⟩ := psNewSubscriber_flow (x := su) hok h
  obtain ⟨qs, hqs, hown, -⟩ := psNewSubscriber_made hok h
  obtain rfl : ps = qs := List.append_cancel_left (hflow.pushes.symm.trans hqs)
  have hnone : arrivals su ps = 0 := arrivals_eq_zero fun p hp => by rw [hown p hp]; exact hsu.symm
  have hlive := psNewSubscriber_live hok h hsu
  cases hS : s.subscribers.get su with
  | none =>
    rw [hS, Option.isSome_none, Option.isSome_eq_false_iff, Option.isNone_iff_eq_none] at hlive
    rw [waitingIn_of_none hS, waitingIn_of_none hlive]
  | some S =>
    rw [hS] at hlive
    obtain ⟨S', hS'⟩ := Option.isSome_iff_exists.mp hlive
    obtain ⟨-, hw, -⟩ := hflow.live S S' hS hS'
    rw [waitingIn_of_get hS, waitingIn_of_get hS']
    omega

/-- The calls on `su` that subscribe. -/
theorem step_made (hok : s.Ok) (hs : step s op = some (r, s')) (hsub : op.subscriber = some su)
    (hne : (requested s op).2 ≠ []) : ∃ ps, Made s su (madeBy s su op) s' ps := by
  cases op
  case subscribe x topic =>
    obtain ⟨⟨n, s'⟩, hx, heq⟩ := Option.map_eq_some_iff.mp hs
    cases heq
    cases hsub
    rw [madeBy, requested, if_pos rfl]
    exact psSubscribeFlags_made hok hx
  case subscribeFlags x topic flags =>
    obtain ⟨⟨n, s'⟩, hx, heq⟩ := Option.map_eq_some_iff.mp hs
    cases heq
    cases hsub
    rw [madeBy, requested, if_pos rfl]
    exact psSubscribeFlags_made hok hx
  case subscribeMany x subs =>
    obtain ⟨⟨n, s'⟩, hx, heq⟩ := Option.map_eq_some_iff.mp hs
    cases heq
    cases hsub
    rw [madeBy, requested, if_pos rfl]
    exact psSubscribeMany_made hok hx
  all_goals first | exact absurd rfl hne | cases hsub

/-- In a call, the pushes of the publish are made while nothing waits, and those of the
temporary subscription are none of another subscriber's. -/
theorem Called.whenEmpty {s₁ s₂ s₃ s₄ : Bus Q} {x : SubId} {msg : MsgId} {n : ℕ} {timeout : Int64}
    {ret : Option MsgId} (hc : Called s msg timeout ret s' s₁ s₂ s₃ s₄ x n) (hok : s.Ok)
    (he : OnEmptyEntries s su) (hsu : su ≠ s.subscribers.next) :
    ∃ ps, s'.pushes = s.pushes ++ ps ∧ WhenEmpty su (waitingIn s su) ps := by
  obtain ⟨hok₁, hok₂, hok₃, hok₄, -⟩ := hc.oks hok
  obtain ⟨m, topic, as, t₀, t₁, hp⟩ := psPublish_published hok₂.names hok₂.alive hc.publish
  have hsame : s₁.pushes = s.pushes ∧ s₁.topicMap = s.topicMap ∧ s₁.subscribers = s.subscribers := by
    obtain ⟨ms, -, rfl⟩ := hc.counter
    exact ⟨rfl, rfl, rfl⟩
  have hx : su ≠ x := by
    rw [(psNewSubscriber_eq_some hc.new).1, hsame.2.2]
    exact hsu
  obtain ⟨ps, hps, hown, -, hentries, -⟩ := psNewSubscriber_made hok₁ hc.new
  have he₂ : OnEmptyEntries s₂ su := by
    intro name sl hsl heq
    rcases hentries name sl hsl with hold | ⟨sub, -, -, rfl⟩
    · rw [hsame.2.1] at hold
      exact he name sl hold heq
    · exact absurd heq.symm hx
  have hlast : s'.pushes = s₃.pushes := by
    rw [psFreeSubscriber_pushes hok₄ hc.free]
    rcases hc.get with ⟨-, -, rfl⟩ | ⟨-, hget⟩
    · rfl
    · exact (psGet_ok hok₃ hget).2.2.2.2.1
  have hothers : ∀ p ∈ ps, p.su ≠ su := by
    intro p hmem
    rw [hown p hmem]
    exact hx.symm
  have hwait : waitingIn s₂ su = waitingIn s su := by
    rw [psNewSubscriber_waitingIn hok₁ hc.new hx, waitingIn, psWaiting, hsame.2.2]
    rfl
  refine ⟨ps ++ as.map (Attempt.push msg), ?_, ?_⟩
  · rw [hlast, hp.log, hps, hsame.1, List.append_assoc]
  · rw [whenEmpty_append, arrivals_eq_zero hothers, Nat.add_zero, ← hwait]
    exact ⟨whenEmpty_of_others hothers, hp.whenEmpty hok₂ he₂⟩

/-- Every push to a subscriber with `on_empty` subscriptions only is made while nothing
waits for it, but for the replay of more than its queue is ready for. -/
theorem step_whenEmpty (hok : s.Ok) (he : OnEmptyEntries s su) (hop : OnEmptyOnly s su op)
    (hs : step s op = some (r, s')) : ∃ ps, s'.pushes = s.pushes ++ ps ∧
      (WhenEmpty su (waitingIn s su) ps ↔ ReplaysAlone s su op) := by
  by_cases hreq : (requested s op).2 ≠ [] → (requested s op).1 ≠ su
  case neg =>
    rw [Classical.not_imp, not_not] at hreq
    obtain ⟨hne, rfl⟩ := hreq
    cases op
    case newSubscriber queueSize subs =>
      obtain ⟨⟨x, s'⟩, hx, heq⟩ := Option.map_eq_some_iff.mp hs
      cases heq
      obtain rfl := (psNewSubscriber_eq_some hx).1
      obtain ⟨ps, hps, hown, hlen, -, ha, -⟩ := psNewSubscriber_made hok hx
      refine ⟨ps, hps, whenEmpty_iff_of_new ?_ hown ?_ ha⟩
      · unfold sizeIn
        rw [queuesOf_next]
      · rw [hlen, replays, madeBy, requested, if_pos rfl]
    case waitOne topic timeout =>
      obtain ⟨⟨ret, s'⟩, hx, heq⟩ := Option.map_eq_some_iff.mp hs
      cases heq
      obtain ⟨su, s₁, s₂, hnew, hget, hfree⟩ := psWaitOne_eq_some hx
      have hget' := psGet_ok (psNewSubscriber_quiet hok hnew).ok hget
      obtain rfl := (psNewSubscriber_eq_some hnew).1
      obtain ⟨ps, hps, hown, hlen, -, ha, -⟩ := psNewSubscriber_made hok hnew
      refine ⟨ps, ?_, whenEmpty_iff_of_new ?_ hown ?_ ha⟩
      · rw [psFreeSubscriber_pushes hget'.1 hfree, hget'.2.2.2.2.1, hps]
      · unfold sizeIn
        rw [queuesOf_next]
      · rw [hlen, replays, madeBy, requested, if_pos rfl]
        rfl
    case call msg timeout => exact absurd hop (not_onEmptyOnly_call hok msg timeout)
    all_goals
      first
      | exact absurd rfl hne
      | obtain ⟨ps, hmade⟩ := step_made hok hs rfl hne
        exact ⟨ps, hmade.pushes, hmade.whenEmpty_iff⟩
  case pos =>
    cases op
    case publish msg =>
      cases msg with
      | none => exact step_pushes_others hok hs hreq (by simp [stickyEvent])
      | some msg =>
        obtain ⟨⟨n, s'⟩, hx, heq⟩ := Option.map_eq_some_iff.mp hs
        cases heq
        obtain ⟨m, topic, as, s₀, s₁, hp⟩ := psPublish_published hok.names hok.alive hx
        exact ⟨_, hp.log, iff_of_true (hp.whenEmpty hok he)
          (replaysAlone_of_none (madeBy_of_ne hreq))⟩
    case call msg timeout =>
      have hsu : s.subscribers.next ≠ su := hreq (List.cons_ne_nil _ _)
      obtain ⟨⟨ret, s'⟩, hx, heq⟩ := Option.map_eq_some_iff.mp hs
      cases heq
      obtain ⟨s₁, s₂, s₃, s₄, x, n, hc⟩ := psCall_called hx
      obtain ⟨ps, hps, hempty⟩ := hc.whenEmpty hok he hsu.symm
      exact ⟨ps, hps, iff_of_true hempty (replaysAlone_of_none (madeBy_of_ne hreq))⟩
    all_goals exact step_pushes_others hok hs hreq (by simp [stickyEvent])

/-- A call adds no entries of `su` but for the subscriptions that it makes. -/
theorem step_onEmptyEntries (hok : s.Ok) (he : OnEmptyEntries s su) (hop : OnEmptyOnly s su op)
    (hs : step s op = some (r, s')) : OnEmptyEntries s' su := by
  have hfrom : ∀ subs, EntriesFrom s s' (Requested su subs) →
      (∀ sub ∈ subs, (subFlags sub.1 sub.2).onEmpty = true) → OnEmptyEntries s' su := by
    intro subs hentries hsubs name sl hsl hsu
    rcases hentries name sl hsl with hold | ⟨sub, hsub, -, rfl⟩
    · exact he name sl hold hsu
    · exact hsubs sub hsub
  have hgone : s'.subscribers.get su = none → OnEmptyEntries s' su := by
    intro hnone name sl hsl hsu
    have hlive := live_of_entry (step_spec hok hs).ok hsl
    rw [hsu, hnone] at hlive
    cases hlive
  by_cases hreq : (requested s op).2 ≠ [] → (requested s op).1 ≠ su
  case pos =>
    intro name sl hsl hsu
    rcases step_entries hok hs name sl hsl with hold | ⟨sub, hsub, -, rfl⟩
    · exact he name sl hold hsu
    · exact absurd hsu (hreq (List.ne_nil_of_mem hsub))
  case neg =>
    rw [Classical.not_imp, not_not] at hreq
    obtain ⟨hne, rfl⟩ := hreq
    have hnew := hop
    rw [OnEmptyOnly, madeBy, if_pos rfl] at hnew
    cases op
    case newSubscriber queueSize subs =>
      obtain ⟨⟨x, s'⟩, hx, heq⟩ := Option.map_eq_some_iff.mp hs
      cases heq
      obtain rfl := (psNewSubscriber_eq_some hx).1
      obtain ⟨ps, -, -, -, hentries, -⟩ := psNewSubscriber_made hok hx
      exact hfrom _ hentries hnew
    case call msg timeout =>
      obtain ⟨⟨ret, s'⟩, hx, heq⟩ := Option.map_eq_some_iff.mp hs
      cases heq
      obtain ⟨s₁, s₂, s₃, s₄, x, n, hc⟩ := psCall_called hx
      obtain ⟨ms, -, rfl⟩ := hc.counter
      apply hgone
      rw [requested, ← (psFreeSubscriber_serves (hc.oks hok).2.2.2.1 hc.free).2,
        (psNewSubscriber_eq_some hc.new).1]
    case waitOne topic timeout =>
      obtain ⟨⟨ret, s'⟩, hx, heq⟩ := Option.map_eq_some_iff.mp hs
      cases heq
      obtain ⟨x, s₁, s₂, hnew, hget, hfree⟩ := psWaitOne_eq_some hx
      have hok₂ := (psGet_ok (psNewSubscriber_quiet hok hnew).ok hget).1
      apply hgone
      rw [requested, ← (psFreeSubscriber_serves hok₂ hfree).2, (psNewSubscriber_eq_some hnew).1]
    all_goals
      first
      | exact absurd rfl hne
      | obtain ⟨ps, hmade⟩ := step_made hok hs rfl hne
        exact hfrom _ hmade.entries hop

theorem pulled_nonneg (hs : step s op = some (r, s')) : 0 ≤ gotBy su (op, r) + flushedBy su (op, r) := by
  have hsub : ∀ (x : SubId) (k : ℕ), 0 ≤ toSub x k su := by
    intro x k
    unfold toSub
    split
    · exact Int.natCast_nonneg k
    · exact Int.le_refl 0
  cases op
  case get x timeout =>
    obtain ⟨⟨msg, s'⟩, -, heq⟩ := Option.map_eq_some_iff.mp hs
    cases heq
    cases msg with
    | none => exact Int.le_refl 0
    | some msg => simpa [gotBy, flushedBy] using hsub x 1
  case flush x =>
    obtain ⟨⟨n, s'⟩, -, heq⟩ := Option.map_eq_some_iff.mp hs
    cases heq
    simpa [gotBy, flushedBy] using hsub x n
  all_goals exact Int.le_refl 0

/-- What waits after a call waited before it or took a free slot. -/
theorem step_waitingIn_le (hok : s.Ok) (hs : step s op = some (r, s')) {ps : List Push}
    (hps : s'.pushes = s.pushes ++ ps) : waitingIn s' su ≤ waitingIn s su + arrivals su ps := by
  cases hS' : s'.subscribers.get su with
  | none =>
    rw [waitingIn_of_none hS']
    exact Nat.zero_le _
  | some S' =>
    have hlive : (s'.subscribers.get su).isSome := by rw [hS']; rfl
    rw [waitingIn_of_get hS']
    cases hS : s.subscribers.get su with
    | some S =>
      rw [waitingIn_of_get hS]
      by_cases hcb : ∃ cb, op = .setNewMsgCb su cb
      · obtain ⟨cb, rfl⟩ := hcb
        obtain ⟨s₁, hx, heq⟩ := Option.map_eq_some_iff.mp hs
        cases heq
        obtain ⟨S₀, callbacks, hS₀, rfl⟩ := psSetNewMsgCb_eq_some hx
        rw [Cells.get_modify_self, hS₀, Option.map_some] at hS'
        rw [hS] at hS₀
        cases hS₀
        cases hS'
        exact Nat.le_add_right _ _
      · obtain ⟨qs, cbs, hflow⟩ := step_flow hok (fun cb heq => hcb ⟨cb, heq⟩) hs
        obtain rfl : ps = qs := List.append_cancel_left (hps.symm.trans hflow.pushes)
        obtain ⟨-, hw, -⟩ := hflow.live S S' hS hS'
        have hout : 0 ≤ gotBy su (op, r) + flushedBy su (op, r) := pulled_nonneg hs
        omega
    | none =>
      obtain ⟨qs, hserves⟩ := step_serves hok hs
      have hnext : s.subscribers.next ≤ su := by
        by_contra hlt
        have hkeep := hserves.keep su (by omega) hlive
        rw [hS] at hkeep
        cases hkeep
      obtain ⟨n, subs, rfl, rfl⟩ := created hok hs hnext hlive
      obtain ⟨⟨x, s'⟩, hx, heq⟩ := Option.map_eq_some_iff.mp hs
      cases heq
      obtain ⟨qs, hqs, -, -, -, -, S₁, hS₁, hw⟩ := psNewSubscriber_made hok hx
      obtain rfl : ps = qs := List.append_cancel_left (hps.symm.trans hqs)
      rw [hS'] at hS₁
      cases hS₁
      omega

end Step

/-- In every run in which `su` makes `on_empty` subscriptions only, and is replayed at most
one sticky message at a time, while nothing waits: never more than one message waits. Of
one more call the pushes to `su` are all made while nothing waits if and only if that
holds of its replay. -/
theorem on_empty_bound {h : List Label} {s : Bus Q} {su : SubId}
    (hr : Run (fun s e s' => step s e.1 = some (e.2, s') ∧ OnEmptyOnly s su e.1 ∧
      ReplaysAlone s su e.1) Bus.init h s) :
    (∀ n, psWaiting s su = some n → n ≤ 1) ∧
    ∀ op r s', step s op = some (r, s') → OnEmptyOnly s su op → ∃ ps,
      s'.pushes = s.pushes ++ ps ∧
      (WhenEmpty su (waitingIn s su) ps ↔ ReplaysAlone s su op) := by
  have hinv : s.Ok ∧ OnEmptyEntries s su ∧ waitingIn s su ≤ 1 := by
    refine hr.invariant (P := fun s => s.Ok ∧ OnEmptyEntries s su ∧ waitingIn s su ≤ 1)
      ⟨init_ok, fun name sl hsl => ?_, ?_⟩ fun s e s' hs hstep => ?_
    · have hnil : entriesAt (Bus.init : Bus Q).topicMap name = [] := rfl
      rw [hnil] at hsl
      cases hsl
    · rw [waitingIn_of_none rfl]
      exact Nat.zero_le 1
    · obtain ⟨hok, he, hw⟩ := hs
      obtain ⟨hs, hop, halone⟩ := hstep
      obtain ⟨ps, hps, hiff⟩ := step_whenEmpty hok he hop hs
      have hle := (hiff.mpr halone).le_one hw
      have hnext : waitingIn s' su ≤ waitingIn s su + arrivals su ps :=
        step_waitingIn_le hok hs hps
      exact ⟨(step_spec hok hs).ok, step_onEmptyEntries hok he hop hs, by omega⟩
  obtain ⟨hok, he, hw⟩ := hinv
  refine ⟨fun n hn => ?_, fun op r s' hs hop => step_whenEmpty hok he hop hs⟩
  rw [waitingIn, hn] at hw
  exact hw

/-- A subscriber of two topics, one with a sticky message; a publish to the other is
skipped. -/
theorem on_empty_bound_skips : ∃ (h : List Label) (s : Bus Bucket.Queue),
    Run (fun s e s' => step s e.1 = some (e.2, s') ∧ OnEmptyOnly s 0 e.1 ∧
      ReplaysAlone s 0 e.1) Bus.init h s ∧
    s.pushes = [⟨0, "a".toList, 0, 0, .ok⟩] ∧ psWaiting s 0 = some 1 ∧ 1 ≤ 1 := by
  have hcalls : (exec (fun (s : Bus Bucket.Queue) op =>
      if OnEmptyOnly s 0 op ∧ ReplaysAlone s 0 op then step s op else none)
      [.newMsg (some "a".toList) 0x801 .nil, .publish (some 0),
        .newSubscriber 5 (some ["a e".toList, "b e".toList]),
        .newMsg (some "b".toList) 0x800 .nil, .publish (some 1)] Bus.init).map
        (fun (_, s) => (s.pushes, psWaiting s 0)) =
      some ([⟨0, "a".toList, 0, 0, .ok⟩], some 1) := by
    decide +kernel
  obtain ⟨⟨rs, s⟩, hexec, heq⟩ := Option.map_eq_some_iff.mp hcalls
  obtain ⟨hpushes, hw⟩ := Prod.mk.inj heq
  have hrun := run_of_exec_if (P := fun s op => OnEmptyOnly s 0 op ∧ ReplaysAlone s 0 op) hexec
  exact ⟨_, s, hrun, hpushes, hw, (on_empty_bound hrun).1 1 hw⟩

/-- A message waits when the subscription to a topic with a sticky message is made: the
replay does not look. -/
theorem on_empty_exceeded : ∃ (h : List Label) (s : Bus Bucket.Queue),
    Run (fun s e s' => step s e.1 = some (e.2, s') ∧ OnEmptyOnly s 0 e.1) Bus.init h s ∧
    psWaiting s 0 = some 2 := by
  have hcalls : (exec (fun (s : Bus Bucket.Queue) op =>
      if OnEmptyOnly s 0 op then step s op else none)
      [.newMsg (some "a".toList) 0x801 .nil, .publish (some 0),
        .newSubscriber 5 (some ["b e".toList]), .newMsg (some "b".toList) 0x800 .nil,
        .publish (some 1), .subscribe 0 "a e".toList] Bus.init).map
        (fun (_, s) => psWaiting s 0) = some (some 2) := by
    decide +kernel
  obtain ⟨⟨rs, s⟩, hexec, hw⟩ := Option.map_eq_some_iff.mp hcalls
  exact ⟨_, s, run_of_exec_if hexec, hw⟩

end PubSub
