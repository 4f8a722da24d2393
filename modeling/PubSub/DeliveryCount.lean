import PubSub.Bus.Shares
import PubSub.PublishRoute
import PubSub.Queue.Ranks

/-! The number that `ps_publish` returns against the number of queues that stored
the message. They differ by the pushes that evict: the message is in the queue, but
`push_subscriber_queue` returns -1 for it. Which pushes evict is decided by what
waits before the publish and by the order of the entries. -/

namespace PubSub

open Lib Bus

/-- The push of an entry that is not hidden, and the queue took the message. -/
def Attempt.stored (a : Attempt) : Bool := a.ret ≠ .efull && !a.sl.hidden

def SubscriberList.rank (sl : SubscriberList) : ℕ := sl.priority.toUInt8.toNat

/-- The entries of one subscriber that are not skipped, where `empty` tells whether
its queue is empty before them. -/
def taken : Bool → List SubscriberList → List SubscriberList
  | _, [] => []
  | empty, sl :: sls => if sl.onEmpty && !empty then taken empty sls else sl :: taken false sls

/-- The push of `sl`, after those of the `earlier` entries of its subscriber, finds
the queue full and a message of lower priority in it. -/
def Evicts (q : IdleQueue Bucket.Queue MsgId) (earlier : List SubscriberList)
    (sl : SubscriberList) : Prop :=
  sl.onEmpty = false ∧ q.capacity ≤ q.waiting + (taken (q.waiting = 0) earlier).length ∧
    Bucket.atLeast q.raw sl.rank +
      (taken (q.waiting = 0) earlier).countP (fun x => sl.rank ≤ x.rank) < q.capacity

section Count

theorem stored_of_counted {a : Attempt} (h : a.counted = true) : a.stored = true := by
  simp only [Attempt.counted, Attempt.stored, Bool.and_eq_true, decide_eq_true_eq] at h ⊢
  exact ⟨by simp [h.1], h.2⟩

/-- The counts agree if no push of an entry that is not hidden evicts. -/
theorem countP_counted_eq_iff (as : List Attempt) :
    as.countP Attempt.counted = as.countP Attempt.stored ↔
      ∀ a ∈ as, a.ret = .eoverflow → a.sl.hidden = true := by
  induction as with
  | nil => simp
  | cons a as ih =>
    have hle : as.countP Attempt.counted ≤ as.countP Attempt.stored :=
      List.countP_mono_left fun a _ => stored_of_counted
    have hhead : (a.ret = .eoverflow → a.sl.hidden = true) ↔ (a.stored = true → a.counted = true) := by
      cases hr : a.ret <;> simp [Attempt.stored, Attempt.counted, hr]
    rw [List.countP_cons, List.countP_cons, List.forall_mem_cons, hhead, ← ih]
    by_cases hc : a.counted = true
    · simp [hc, stored_of_counted hc]
    · by_cases hs : a.stored = true
      · simp only [hc, hs, Bool.false_eq_true, if_true, if_false, imp_false, not_true_eq_false,
          false_and, iff_false]
        omega
      · simp [hc, hs]

end Count

section Queue
variable {q q' : IdleQueue Bucket.Queue MsgId} {msg : MsgId} {ret : QueueRet} {d : Option MsgId}
  {sl first : SubscriberList} {earlier : List SubscriberList}

theorem waiting_eq_atLeast (q : IdleQueue Bucket.Queue MsgId) :
    q.waiting = Bucket.atLeast q.raw 0 := by
  rw [Bucket.atLeast_zero, IdleQueue.waiting_eq]
  exact List.length_map _

/-- The first entry of the route evicts. -/
theorem evicts_nil (hskip : ¬ (sl.onEmpty && q.waiting ≠ 0) = true)
    (hp : q.push msg sl.priority.toUInt8 = some (ret, d, q')) :
    ret = .eoverflow ↔ Evicts q [] sl := by
  rw [Bucket.push_eoverflow q.ok (IdleQueue.push_eq_some.mp hp), ← waiting_eq_atLeast, Evicts]
  simp only [taken, List.length_nil, List.countP_nil, Nat.add_zero]
  change q.capacity ≤ q.waiting ∧ Bucket.atLeast q.raw sl.rank < q.capacity ↔ _
  constructor
  · rintro ⟨hfull, hlow⟩
    refine ⟨?_, hfull, hlow⟩
    by_contra hon
    simp only [Bool.not_eq_false] at hon
    simp only [hon, Bool.true_and, decide_eq_true_eq, not_not] at hskip
    omega
  · exact And.right

theorem evicts_cons_skip (hskip : (first.onEmpty && q.waiting ≠ 0) = true) :
    Evicts q (first :: earlier) sl ↔ Evicts q earlier sl := by
  have htaken : taken (q.waiting = 0) (first :: earlier) = taken (q.waiting = 0) earlier := by
    rw [taken, if_pos (by simpa using hskip)]
  rw [Evicts, Evicts, htaken]

/-- An entry that is pushed counts as a message that waits. -/
theorem evicts_cons_push (hskip : ¬ (first.onEmpty && q.waiting ≠ 0) = true)
    (hp : q.push msg first.priority.toUInt8 = some (ret, d, q')) :
    Evicts q (first :: earlier) sl ↔ Evicts q' earlier sl := by
  have htaken : taken (q.waiting = 0) (first :: earlier) = first :: taken false earlier := by
    rw [taken, if_neg (by simpa using hskip)]
  have hcap := (IdleQueue.push_spec hp).1
  have hatLeast := Bucket.push_atLeast q.ok (IdleQueue.push_eq_some.mp hp)
  have hw : q'.waiting = min q.capacity (q.waiting + 1) := by
    rw [waiting_eq_atLeast, waiting_eq_atLeast, hatLeast, if_pos (Nat.zero_le _)]
    rfl
  have hr : Bucket.atLeast q'.raw sl.rank =
      min q.capacity (Bucket.atLeast q.raw sl.rank + if sl.rank ≤ first.rank then 1 else 0) :=
    hatLeast sl.rank
  rw [Evicts, Evicts, htaken, hcap, hr, hw, List.length_cons, List.countP_cons]
  simp only [decide_eq_true_eq]
  rcases Nat.eq_zero_or_pos q.capacity with h0 | hpos
  · omega
  · have hne : (decide (min q.capacity (q.waiting + 1) = 0)) = false := by
      rw [decide_eq_false_iff_not]
      omega
    rw [hne]
    constructor
    · rintro ⟨hon, hfull, hlow⟩
      exact ⟨hon, by omega, by omega⟩
    · rintro ⟨hon, hfull, hlow⟩
      exact ⟨hon, by omega, by omega⟩

end Queue

section Offers
variable {msg : MsgId} {qs qs' : Queues Bucket.Queue} {as : List Attempt}
  {es pre : List (Str × SubscriberList)} {e first : Str × SubscriberList}

/-- Some entry of the list that is not hidden evicts. -/
def EvictsIn (qs : Queues Bucket.Queue) (es : List (Str × SubscriberList)) : Prop :=
  ∃ pre e post q, es = pre ++ e :: post ∧ e.2.hidden = false ∧ qs e.2.su = some q ∧
    Evicts q (entriesFor e.2.su pre) e.2

/-- What the first entry does to the question for a later one. -/
theorem evicts_after (h : offer msg qs first = some (as, qs')) :
    (∃ q, qs e.2.su = some q ∧ Evicts q (entriesFor e.2.su (first :: pre)) e.2) ↔
      ∃ q, qs' e.2.su = some q ∧ Evicts q (entriesFor e.2.su pre) e.2 := by
  obtain ⟨q, hq, hcases⟩ := offer_cases h
  by_cases hsu : first.2.su = e.2.su
  · have hentries : entriesFor e.2.su (first :: pre) = first.2 :: entriesFor e.2.su pre := by
      simp [entriesFor, hsu]
    rw [hentries, ← hsu, hq]
    rcases hcases with ⟨hskip, -, rfl⟩ | ⟨hskip, ret, d, q', hp, -, rfl⟩
    · simp only [hq, Option.some.injEq, exists_eq_left', evicts_cons_skip hskip]
    · simp only [Function.update_self, Option.some.injEq, exists_eq_left',
        evicts_cons_push hskip hp]
  · have hentries : entriesFor e.2.su (first :: pre) = entriesFor e.2.su pre := by
      simp [entriesFor, hsu]
    have hqs : qs' e.2.su = qs e.2.su := by
      rcases hcases with ⟨-, -, rfl⟩ | ⟨-, ret, d, q', -, -, rfl⟩
      · rfl
      · exact Function.update_of_ne (Ne.symm hsu) _ _
    rw [hentries, hqs]

theorem evictsIn_cons (h : offer msg qs first = some (as, qs')) :
    EvictsIn qs (first :: es) ↔ (first.2.hidden = false ∧
      ∃ q, qs first.2.su = some q ∧ Evicts q [] first.2) ∨ EvictsIn qs' es := by
  constructor
  · rintro ⟨pre, e, post, q, hes, hh, hq, hev⟩
    cases pre with
    | nil =>
      cases hes
      exact .inl ⟨hh, q, hq, hev⟩
    | cons f pre =>
      cases hes
      obtain ⟨q', hq', hev'⟩ := (evicts_after h).mp ⟨q, hq, hev⟩
      exact .inr ⟨pre, e, post, q', rfl, hh, hq', hev'⟩
  · rintro (⟨hh, q, hq, hev⟩ | ⟨pre, e, post, q', rfl, hh, hq', hev'⟩)
    · exact ⟨[], first, es, q, rfl, hh, hq, hev⟩
    · obtain ⟨q, hq, hev⟩ := (evicts_after h).mpr ⟨q', hq', hev'⟩
      exact ⟨first :: pre, e, post, q, rfl, hh, hq, hev⟩

theorem offers_evict (h : offers msg es qs = some (as, qs')) :
    (∃ a ∈ as, a.ret = .eoverflow ∧ a.sl.hidden = false) ↔ EvictsIn qs es := by
  induction es generalizing qs as with
  | nil =>
    cases h
    simp [EvictsIn]
  | cons first es ih =>
    obtain ⟨as₁, as₂, qs₁, ho, hos, rfl⟩ := offers_cons_eq_some h
    rw [evictsIn_cons ho, ← ih hos]
    simp only [List.mem_append, or_and_right, exists_or]
    refine or_congr ?_ Iff.rfl
    obtain ⟨q, hq, hcases⟩ := offer_cases ho
    simp only [hq, Option.some.injEq, exists_eq_left']
    rcases hcases with ⟨hskip, rfl, -⟩ | ⟨hskip, ret, d, q', hp, rfl, -⟩
    · simp only [List.not_mem_nil, false_and, exists_false, false_iff, not_and]
      rintro - ⟨hon, -⟩
      simp [hon] at hskip
    · simp only [List.mem_singleton, exists_eq_left, evicts_nil hskip hp]
      exact and_comm

end Offers

namespace Client
variable {c : Client Bucket.Queue} {msg : MsgId} {m : PsMsg} {t : Str}

/-- A publish that returns gives the number of entries that are not hidden and whose queue
stored the message if and only if none of them evicts another message. A client that holds
the message can publish, with priorities of one digit and room in the counter. -/
theorem publish_count_iff {h : List Label} (hr : start.Reaches h c)
    (hm : c.bus.messages.cells.get msg = some m) (ht : m.topic = some t) :
    (∀ n s', psPublish c.bus (some msg) = some (n, s') → ∃ as : List Attempt,
      offers msg (route c.bus.topicMap m (cutFlags t)) (queuesOf c.bus.subscribers) =
        some (as, queuesOf s'.subscribers) ∧
      s'.pushes = c.bus.pushes ++ as.map (Attempt.push msg) ∧
      (n = as.countP Attempt.stored ↔
        ¬ EvictsIn (queuesOf c.bus.subscribers) (route c.bus.topicMap m (cutFlags t)))) ∧
    (c.bus.messages.refWrap = false → 0 < c.held msg →
      m.ref.toNat + (route c.bus.topicMap m (cutFlags t)).length + 1 < 2 ^ 32 →
      (∀ e ∈ route c.bus.topicMap m (cutFlags t), e.2.priority.toUInt8.toNat < 10) →
      ∃ n s', psPublish c.bus (some msg) = some (n, s')) := by
  refine ⟨fun n s' h => ?_, fun hw hheld hroom hprio => ?_⟩
  · obtain ⟨as, s₀, s₁, hp⟩ := hr.accounted.published hm ht h
    refine ⟨as, hp.offers, hp.log, ?_⟩
    rw [hp.count, countP_counted_eq_iff, ← offers_evict hp.offers]
    simp only [not_exists, not_and, Bool.not_eq_false]
  · obtain ⟨n, s', -, -, -, h, -⟩ := hr.accounted.publishes hw hheld hm ht hroom hprio
    exact ⟨n, s', h⟩

/-- A publish that evicts nothing, on a route with an `on_empty` and a hidden entry. -/
theorem publish_count_iff_hidden : ∃ c : Client Bucket.Queue,
    exec Client.step [.newSubscriber 1 (some ["a.b".toList, "a e".toList]),
      .newSubscriber 1 (some ["a h".toList]),
      .newMsg (some "a.b".toList) 0x800 .nil] Client.start =
      some ([.subscriber 0, .subscriber 1, .msg (some 0)], c) ∧
    ∃ (n : ℕ) (s' : Bus Bucket.Queue) (as : List Attempt),
      psPublish c.bus (some 0) = some (n, s') ∧
      s'.pushes = c.bus.pushes ++ as.map (Attempt.push 0) ∧
      (n = as.countP Attempt.stored ↔ ¬ EvictsIn (queuesOf c.bus.subscribers)
        [("a.b".toList, ⟨0, false, false, 0⟩), ("a".toList, ⟨0, false, true, 0⟩),
          ("a".toList, ⟨1, true, false, 0⟩)]) := by
  have hcalls : (exec (Client.step (Q := Bucket.Queue)) [.newSubscriber 1
      (some ["a.b".toList, "a e".toList]), .newSubscriber 1 (some ["a h".toList]),
      .newMsg (some "a.b".toList) 0x800 .nil] Client.start).map (fun (rs, c) =>
        (rs, !c.bus.messages.refWrap && c.held 0 = 1 &&
          route c.bus.topicMap ⟨1, some "a.b".toList, none, 0x800, 0, .nil⟩ "a.b".toList =
            [("a.b".toList, ⟨0, false, false, 0⟩), ("a".toList, ⟨0, false, true, 0⟩),
              ("a".toList, ⟨1, true, false, 0⟩)], c.bus.messages.cells.get 0)) =
      some ([.subscriber 0, .subscriber 1, .msg (some 0)], true,
        some ⟨1, some "a.b".toList, none, 0x800, 0, .nil⟩) := by
    decide +kernel
  obtain ⟨⟨rs, c⟩, hexec, hfacts⟩ := Option.map_eq_some_iff.mp hcalls
  simp only [Prod.mk.injEq, Bool.and_eq_true, Bool.not_eq_true', decide_eq_true_eq] at hfacts
  obtain ⟨rfl, ⟨⟨hw, hheld⟩, hroute⟩, hm⟩ := hfacts
  obtain ⟨hcount, hreturns⟩ := publish_count_iff (run_of_exec hexec) hm rfl
  have hcut : cutFlags "a.b".toList = "a.b".toList := rfl
  rw [hcut, hroute] at hcount hreturns
  obtain ⟨n, s', h⟩ := hreturns hw (by omega) (by decide) (by decide)
  obtain ⟨as, -, hpushes, hn⟩ := hcount n s' h
  exact ⟨c, hexec, n, s', as, h, hpushes, hn⟩

/-- One subscriber with a queue of one and two entries. The second message takes the
place of the first, and its publish returns 0. -/
theorem publish_count_evicted : ∃ c : Client Bucket.Queue,
    exec Client.step [.newSubscriber 1 (some ["a".toList, "b p5".toList]),
      .newMsg (some "a".toList) 0x800 .nil, .publish (some 0),
      .newMsg (some "b".toList) 0x800 .nil] Client.start =
      some ([.subscriber 0, .msg (some 0), .int 1, .msg (some 1)], c) ∧
    ∃ s' : Bus Bucket.Queue, psPublish c.bus (some 1) = some (0, s') ∧
      ∃ as : List Attempt, s'.pushes = c.bus.pushes ++ as.map (Attempt.push 1) ∧
        as.countP Attempt.stored = 1 ∧
        (queuesOf s'.subscribers 0).map IdleQueue.items = some [1] := by
  refine ⟨_, rfl, _, rfl, [⟨"b".toList, ⟨0, false, false, 5⟩, .eoverflow⟩], ?_, ?_, ?_⟩
  · decide
  · decide
  · rfl

end Client

end PubSub
