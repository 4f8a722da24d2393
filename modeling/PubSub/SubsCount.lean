import PubSub.PublishRoute
import PubSub.Queue.Bucket

/-! `ps_subs_count` against `ps_publish`, where every subscription of the route has a
free slot and none is an `on_empty` one. Both walk the same topics, but the loop of
`ps_subs_count` ends before the root, where subscriptions to every topic are. -/

namespace PubSub

open Lib Bus

variable {Q : Type → Type} [PsQueue Q] [LawfulPsQueue Q]

/-- The number of subscriptions that are not hidden. -/
def visible (es : List (Str × SubscriberList)) : ℕ := es.countP fun e => !e.2.hidden

@[simp] theorem visible_append (es fs : List (Str × SubscriberList)) :
    visible (es ++ fs) = visible es + visible fs := List.countP_append

theorem visible_at (topicMap : Cells TopicMap) (name : Str) :
    visible (subscriptionsAt topicMap [name]) =
      (entriesAt topicMap name).countP fun sl => !sl.hidden := by
  simp [visible, subscriptionsAt, List.countP_map, Function.comp_def]

theorem visible_at_eq_zero {topicMap : Cells TopicMap} {name : Str} :
    visible (subscriptionsAt topicMap [name]) = 0 ↔
      ∀ sl ∈ entriesAt topicMap name, sl.hidden = true := by
  rw [visible_at, List.countP_eq_zero]
  simp

section Count
variable {s : Bus Q} {topic : Str}

/-- One round of the loop of `ps_subs_count`. -/
theorem subsCountLoop_succ (s : Bus Q) (fuel : ℕ) (count : ℕ) (h : topic ≠ []) :
    subsCountLoop s (fuel + 1) topic count =
      subsCountLoop s fuel (truncate topic)
        (count + visible (subscriptionsAt s.topicMap [topic])) := by
  rw [subsCountLoop, if_neg fun hlen => h (List.length_eq_zero_iff.mp hlen), visible_at]
  cases hf : fetchTopic s.topicMap topic with
  | none =>
    rw [entriesAt, topicAt_eq_none.mpr hf]
    rfl
  | some tm =>
    obtain ⟨t, ht, -⟩ := fetchTopic_some hf
    rw [entriesAt, topicAt_of_fetch hf ht]
    simp only [ht, Option.bind_eq_bind, Option.bind_some]
    rfl

/-- The loop ends, and has counted what the route of a recursive message has before
the root. -/
theorem subsCountLoop_eq {m : PsMsg} (hm : m.nonrecursive = false) {fuel : ℕ} (count : ℕ)
    (hf : topic.length < fuel) : ∃ k, subsCountLoop s fuel topic count = some (count + k) ∧
      k + visible (subscriptionsAt s.topicMap [[]]) = visible (route s.topicMap m topic) := by
  induction fuel generalizing topic count with
  | zero => omega
  | succ fuel ih =>
    by_cases htop : topic = []
    · subst htop
      refine ⟨0, by simp [subsCountLoop], ?_⟩
      rw [route, visited_nil, Nat.zero_add]
    · have hlt := length_truncate_lt htop
      have hf' : (truncate topic).length < fuel := by omega
      obtain ⟨k, hk, hvisible⟩ := ih (count + visible (subscriptionsAt s.topicMap [topic])) hf'
      refine ⟨visible (subscriptionsAt s.topicMap [topic]) + k, ?_, ?_⟩
      · rw [subsCountLoop_succ s fuel count htop, hk, Nat.add_assoc]
      · rw [route_cons hm htop, visible_append]
        omega

theorem psSubsCount_eq {m : PsMsg} (hm : m.nonrecursive = false) (s : Bus Q) {t : Str}
    (ht : t ≠ []) : ∃ k, psSubsCount s (some t) = some k ∧
      k + visible (subscriptionsAt s.topicMap [[]]) = visible (route s.topicMap m (cutFlags t)) := by
  obtain ⟨k, hk, hvisible⟩ := subsCountLoop_eq (s := s) hm 0 (Nat.lt_succ_self (cutFlags t).length)
  refine ⟨k, ?_, hvisible⟩
  rw [psSubsCount, if_neg fun hlen => ht (List.length_eq_zero_iff.mp hlen)]
  simpa using hk

end Count

/-- The subscriptions of `su` in a list. -/
def slotsFor (su : SubId) (es : List (Str × SubscriberList)) : ℕ := es.countP fun e => e.2.su = su

/-- Every subscriber has a free slot for each of its subscriptions. -/
def HasRoom (qs : Queues Q) (es : List (Str × SubscriberList)) : Prop :=
  ∀ su q, qs su = some q → q.waiting + slotsFor su es ≤ q.capacity

/-- With room, an offer is accepted and leaves room for the rest. -/
theorem offer_room {msg : MsgId} {qs qs' : Queues Q} {as : List Attempt} {e : Str × SubscriberList}
    {es : List (Str × SubscriberList)} (he : e.2.onEmpty = false) (hroom : HasRoom qs (e :: es))
    (h : offer msg qs e = some (as, qs')) : as = [⟨e.1, e.2, .ok⟩] ∧ HasRoom qs' es := by
  obtain ⟨q, hq, ⟨hskip, -, -⟩ | ⟨-, ret, evicted, q', hp, rfl, rfl⟩⟩ := offer_cases h
  · simp [he] at hskip
  obtain ⟨hcap, hpushed⟩ := IdleQueue.push_spec hp
  have hfree := hroom e.2.su q hq
  simp only [slotsFor, List.countP_cons, decide_true, ↓reduceIte, IdleQueue.waiting_eq] at hfree
  obtain ⟨rfl, hlen⟩ := hpushed.ok_of_lt (by omega)
  refine ⟨rfl, fun su r hr => ?_⟩
  rw [Function.update_apply] at hr
  split at hr
  case isTrue hsu =>
    cases hr
    simp only [slotsFor, IdleQueue.waiting_eq, hsu, hcap]
    omega
  case isFalse hsu =>
    have hother := hroom su r hr
    rw [slotsFor, List.countP_cons_of_neg (by simpa using Ne.symm hsu)] at hother
    exact hother

theorem offers_room {msg : MsgId} {qs qs' : Queues Q} {as : List Attempt}
    {es : List (Str × SubscriberList)} (hes : ∀ e ∈ es, e.2.onEmpty = false) (hroom : HasRoom qs es)
    (h : offers msg es qs = some (as, qs')) : as.countP Attempt.counted = visible es := by
  induction es generalizing qs as with
  | nil =>
    cases h
    rfl
  | cons e es ih =>
    obtain ⟨as₁, as₂, qs₁, ho, hos, rfl⟩ := offers_cons_eq_some h
    obtain ⟨rfl, hroom₁⟩ := offer_room (hes e List.mem_cons_self) hroom ho
    rw [List.countP_append, ih (fun f hf => hes f (List.mem_cons_of_mem _ hf)) hroom₁ hos]
    simp [visible, List.countP_cons, Attempt.counted, Nat.add_comm]

namespace Client
variable {c : Client Q} {msg : MsgId} {m : PsMsg} {t : Str}

/-- Where no subscription of the route is an `on_empty` one and all have room,
`ps_publish` returns what `ps_subs_count` returned before it if and only if every
subscription to the root is hidden. -/
theorem subsCount_eq_publish_iff {h : List Label} (hr : start.Reaches h c)
    (hm : c.bus.messages.cells.get msg = some m) (ht : m.topic = some t) (hne : t ≠ [])
    (hrec : m.nonrecursive = false)
    (hempty : ∀ e ∈ route c.bus.topicMap m (cutFlags t), e.2.onEmpty = false)
    (hfree : ∀ su q, queuesOf c.bus.subscribers su = some q →
      q.waiting + slotsFor su (route c.bus.topicMap m (cutFlags t)) ≤ q.capacity) :
    ∃ k, psSubsCount c.bus (some t) = some k ∧
      (∀ n s', psPublish c.bus (some msg) = some (n, s') →
        (n = k ↔ ∀ sl ∈ entriesAt c.bus.topicMap [], sl.hidden = true)) ∧
      (0 < c.held msg → c.bus.messages.refWrap = false →
        m.ref.toNat + (route c.bus.topicMap m (cutFlags t)).length + 1 < 2 ^ 32 →
        (∀ e ∈ route c.bus.topicMap m (cutFlags t), e.2.priority.toUInt8.toNat < 10) →
        ∃ n s', psPublish c.bus (some msg) = some (n, s')) := by
  have ha := hr.accounted
  obtain ⟨k, hk, hvisible⟩ := psSubsCount_eq hrec c.bus hne
  refine ⟨k, hk, fun n s' hp => ?_, fun hheld hw hroom hprio => ?_⟩
  · obtain ⟨as, s₀, s₁, hpub⟩ := ha.published hm ht hp
    have hcount : n = visible (route c.bus.topicMap m (cutFlags t)) := by
      rw [hpub.count]
      exact offers_room hempty hfree hpub.offers
    rw [← visible_at_eq_zero]
    omega
  · obtain ⟨n, s', -, -, -, hp, -⟩ := ha.publishes hw hheld hm ht hroom hprio
    exact ⟨n, s', hp⟩

/-- A subscriber of two topics of the chain, and a subscription to the root that is hidden. -/
theorem subsCount_eq_publish_iff_hidden : ∃ (h : List Label) (c : Client Bucket.Queue) (k n : ℕ)
    (s' : Bus Bucket.Queue), start.Reaches h c ∧
    psSubsCount c.bus (some "a.b x".toList) = some k ∧ psPublish c.bus (some 0) = some (n, s') ∧
    (n = k ↔ ∀ sl ∈ entriesAt c.bus.topicMap [], sl.hidden = true) := by
  have hqueue : (exec (Client.step (Q := Bucket.Queue)) [.newSubscriber 3
      (some ["a.b p4".toList, "a".toList, " h".toList]), .newMsg (some "a.b x".toList) 0x800 .nil]
      Client.start).map (fun (_, c) => (c.bus.subscribers.next, c.held 0,
        (queuesOf c.bus.subscribers 0).map fun q => (q.waiting, q.capacity))) =
      some (1, 1, some (0, 3)) := by
    decide +kernel
  have hmsg : (exec (Client.step (Q := Bucket.Queue)) [.newSubscriber 3
      (some ["a.b p4".toList, "a".toList, " h".toList]), .newMsg (some "a.b x".toList) 0x800 .nil]
      Client.start).map (fun (_, c) => (c.bus.messages.cells.get 0, c.bus.messages.refWrap,
        route c.bus.topicMap ⟨1, some "a.b x".toList, none, 0x800, 0, .nil⟩ "a.b".toList)) =
      some (some ⟨1, some "a.b x".toList, none, 0x800, 0, .nil⟩, false,
        [("a.b".toList, ⟨0, false, false, 4⟩), ("a".toList, ⟨0, false, false, 0⟩),
          ("".toList, ⟨0, true, false, 0⟩)]) := rfl
  obtain ⟨⟨rs, c⟩, hexec, hqueue⟩ := Option.map_eq_some_iff.mp hqueue
  rw [hexec] at hmsg
  simp only [Option.map_some, Option.some.injEq, Prod.mk.injEq] at hqueue hmsg
  obtain ⟨hm, hw, hroute⟩ := hmsg
  obtain ⟨hnext, hheld, hqueue⟩ := hqueue
  have hrun := run_of_exec hexec
  have hboth := subsCount_eq_publish_iff hrun hm rfl (by decide) rfl
    (by rw [show cutFlags "a.b x".toList = "a.b".toList from rfl, hroute]; decide) fun su q hq => ?_
  · obtain ⟨k, hk, hiff, hexists⟩ := hboth
    rw [show cutFlags "a.b x".toList = "a.b".toList from rfl, hroute] at hexists
    obtain ⟨n, s', hp⟩ := hexists (by rw [hheld]; decide) hw (by decide) (by decide)
    exact ⟨_, c, k, n, s', hrun, hk, hp, hiff n s' hp⟩
  · obtain ⟨S, hS, -⟩ := queuesOf_eq_some.mp hq
    obtain rfl : su = 0 := by
      have hlt := Cells.lt_next hS
      rw [hnext] at hlt
      exact Nat.lt_one_iff.mp hlt
    rw [hq] at hqueue
    simp only [Option.map_some, Option.some.injEq, Prod.mk.injEq] at hqueue
    rw [show cutFlags "a.b x".toList = "a.b".toList from rfl, hroute, hqueue.1, hqueue.2]
    decide

/-- One subscriber of every topic and nobody else: `ps_subs_count` finds no subscription
for a message that `ps_publish` delivers to one. -/
theorem subsCount_root : ∃ c : Client Bucket.Queue,
    exec Client.step [.newSubscriber 10 (some ["".toList]),
      .newMsg (some "foo".toList) 0x800 .nil] Client.start =
      some ([.subscriber 0, .msg (some 0)], c) ∧
    route c.bus.topicMap ⟨1, some "foo".toList, none, 0x800, 0, .nil⟩ "foo".toList =
      [("".toList, ⟨0, false, false, 0⟩)] ∧
    (queuesOf c.bus.subscribers 0).map (fun q => (q.waiting, q.capacity)) = some (0, 10) ∧
    psSubsCount c.bus (some "foo".toList) = some 0 ∧
    ∃ s', psPublish c.bus (some 0) = some (1, s') := by
  refine ⟨_, rfl, ?_, rfl, rfl, _, rfl⟩
  decide

end Client

end PubSub
