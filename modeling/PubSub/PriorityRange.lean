import PubSub.PublishRoute
import PubSub.StickyReplay

/-! The indices into `priorities` that pushes use. A priority travels from the flags of
a subscription through its entry to the queue; the digit of a topic string is below
`PRIORITIES`, a `ps_sub_flags_t` need not be. -/

namespace PubSub

open Lib Bus

/-! ### The indices of one push -/

namespace Bucket
variable {α : Type}

/-- The indices that the loop of `bqueue_get_available` reads from `i` on, with `left`
indices below `max_prio` to go. -/
def scanIndices (q : Queue α) (i : ℕ) : ℕ → List ℕ
  | 0 => []
  | left + 1 => i :: if (q.row i).isEmpty then scanIndices q (i + 1) left else []

/-- The indices that a push uses: those of the scan, then the one of `bqueue_insert`. -/
def pushIndices (q : Queue α) (priority : UInt8) : List ℕ :=
  (if q.available.isEmpty then scanIndices q 0 priority.toNat else []) ++
    match bqueueGetAvailable q priority with
    | some (_, some _, _, _) => [priority.toNat]
    | _ => []

theorem scanIndices_lt {q : Queue α} {i j left : ℕ} (h : j ∈ scanIndices q i left) : j < i + left := by
  induction left generalizing i with
  | zero => cases h
  | succ left ih =>
    rw [scanIndices] at h
    rcases List.mem_cons.mp h with rfl | h
    · omega
    · split at h
      · have := ih h
        omega
      · cases h

/-- The loop goes past the end of the array if it uses an index that is not in it. -/
theorem dropLowest_isSome_iff {q : Queue α} {i left : ℕ} :
    (dropLowest q i left).isSome ↔ ∀ j ∈ scanIndices q i left, j < PRIORITIES := by
  induction left generalizing i with
  | zero => simp [dropLowest, scanIndices]
  | succ left ih =>
    rw [dropLowest, scanIndices, List.forall_mem_cons]
    by_cases hi : i < PRIORITIES
    · rw [dif_pos hi, row_lt q hi]
      cases hrow : q.priorities ⟨i, hi⟩ with
      | nil => simp [hi, ih]
      | cons n rest =>
        obtain ⟨last, hlast⟩ : ∃ last, (n :: rest).getLast? = some last :=
          ⟨_, List.getLast?_eq_some_getLast (List.cons_ne_nil n rest)⟩
        rw [hlast]
        simp [hi]
    · simp [hi]

/-- A push is undefined behaviour if and only if it uses an index past the end. -/
theorem psQueuePush_isSome_iff (q : Queue α) (m : α) (p : UInt8) :
    (psQueuePush q m p).isSome ↔ ∀ i ∈ pushIndices q p, i < PRIORITIES := by
  have hinsert : ∀ (q : Queue α) (n : Node α), (bqueueInsert q n p).isSome ↔
      p.toNat < PRIORITIES := by
    intro q n
    unfold bqueueInsert
    split
    case isTrue hp => simp [hp]
    case isFalse hp => simp [hp]
  rw [pushIndices, List.forall_mem_append, psQueuePush]
  cases ha : q.available with
  | cons n rest =>
    simp only [bqueueGetAvailable, ha, Option.bind_eq_bind, Option.bind_some, List.isEmpty_cons,
      Bool.false_eq_true, ↓reduceIte]
    rw [Option.isSome_bind]
    simpa using hinsert _ _
  | nil =>
    simp only [bqueueGetAvailable, ha, List.isEmpty_nil, ↓reduceIte, ← dropLowest_isSome_iff]
    cases hd : dropLowest q 0 p.toNat with
    | none => simp
    | some x =>
      obtain ⟨ret, o, d, q'⟩ := x
      cases o with
      | none => simp
      | some n =>
        simp only [Option.bind_eq_bind, Option.bind_some]
        rw [Option.isSome_bind]
        simpa using hinsert _ _

theorem pushIndices_lt {p : UInt8} (hp : p.toNat < PRIORITIES) (q : Queue α) :
    ∀ i ∈ pushIndices q p, i < PRIORITIES := by
  intro i hi
  rcases List.mem_append.mp hi with hi | hi
  · split at hi
    · have := scanIndices_lt hi
      omega
    · cases hi
  · split at hi
    · rw [List.mem_singleton.mp hi]
      exact hp
    · cases hi

/-- Of a queue that has a node, every push with a greater priority goes past the end. -/
theorem pushIndices_iff {q : Queue α} (hq : 0 < capacity q) (p : UInt8) :
    (∀ i ∈ pushIndices q p, i < PRIORITIES) ↔ p.toNat < PRIORITIES := by
  refine ⟨fun h => ?_, fun hp => pushIndices_lt hp q⟩
  rw [pushIndices, List.forall_mem_append] at h
  cases ha : q.available with
  | cons n rest => simpa [bqueueGetAvailable, ha] using h.2
  | nil =>
    simp only [bqueueGetAvailable, ha, List.isEmpty_nil, ↓reduceIte, ← dropLowest_isSome_iff] at h
    obtain ⟨⟨ret, o, d, q'⟩, hd⟩ := Option.isSome_iff_exists.mp h.1
    rw [hd] at h
    rcases dropLowest_cases hd with ⟨-, rfl, -, -, hrows⟩ | ⟨j, -, nd, rest, -, -, -, -, -, rfl, -, -⟩
    · -- every list that was looked at is empty, so there are others
      by_contra hp
      have hnodes : bucketNodes q = 0 := by
        rw [bucketNodes, List.sum_eq_zero]
        intro k hk
        obtain ⟨i, hi, rfl⟩ := List.mem_map.mp hk
        have hi := List.mem_range.mp hi
        rw [hrows i (Nat.zero_le i) (by omega), List.length_nil]
      simp [capacity, ha, hnodes] at hq
    · simpa using h.2

end Bucket

namespace Client

/-- In every run whose subscriptions all have a priority in effect of at most 9: every
push with the priority of an entry, or of one more such subscription, uses indices below
`PRIORITIES` only, whatever the queue holds; publishes and subscriptions return, for
clients that hold what they publish and with room in the counters; and no queue with a
node takes a greater priority. -/
theorem priorities_in_range {h : List Label} {c : Client Bucket.Queue}
    (hr : Run (fun c e c' => c.step e.1 = some (e.2, c') ∧ PriorityOk c.bus e.1) Client.start h c) :
    (∀ name, ∀ sl ∈ entriesAt c.bus.topicMap name, ∀ q : Bucket.Queue MsgId,
      ∀ i ∈ Bucket.pushIndices q sl.priority.toUInt8, i < Bucket.PRIORITIES) ∧
    (∀ t flags, (subFlags t flags).priority.toNat < Bucket.PRIORITIES → ∀ q : Bucket.Queue MsgId,
      ∀ i ∈ Bucket.pushIndices q (subFlags t flags).priority, i < Bucket.PRIORITIES) ∧
    (c.bus.messages.refWrap = false → ∀ msg m t, 0 < c.held msg →
      c.bus.messages.cells.get msg = some m → m.topic = some t →
      m.ref.toNat + (route c.bus.topicMap m (cutFlags t)).length + 1 < 2 ^ 32 →
      ∃ n s', psPublish c.bus (some msg) = some (n, s')) ∧
    (c.bus.messages.refWrap = false → ∀ su t flags, PriorityOk c.bus (.subscribeFlags su t flags) →
      (c.bus.subscribers.get su).isSome →
      (∀ u ∈ replayedTopics c.bus.topicMap (cutFlags t) (subFlags t flags), ∀ i m,
        stickyAt c.bus.topicMap u = some i → c.bus.messages.cells.get i = some m → m.ref.toNat +
          (replayedTopics c.bus.topicMap (cutFlags t) (subFlags t flags)).length < 2 ^ 32) →
      ∃ n s', psSubscribeFlags c.bus su t flags = some (n, s')) ∧
    (∀ su q, queuesOf c.bus.subscribers su = some q → 0 < q.capacity → ∀ p,
      (∀ i ∈ Bucket.pushIndices q.raw p, i < Bucket.PRIORITIES) ↔ p.toNat < Bucket.PRIORITIES) := by
  obtain ⟨ha, hp⟩ := accounted_priorities hr
  refine ⟨fun name sl hsl q => Bucket.pushIndices_lt (hp name sl hsl) q,
    fun t flags ht q => Bucket.pushIndices_lt ht q, fun hw msg m t hheld hm ht hroom => ?_,
    fun hw su t flags hflags hsu hroom => ?_, fun su q _ hq p => Bucket.pushIndices_iff hq p⟩
  · obtain ⟨n, s', -, -, -, h, -⟩ := ha.publishes hw hheld hm ht hroom (hp.route m (cutFlags t))
    exact ⟨n, s', h⟩
  · by_cases hin : su ∈ (entriesAt c.bus.topicMap (cutFlags t)).map SubscriberList.su
    · exact ⟨-1, c.bus, psSubscribeFlags_listed ha.ok flags hin⟩
    obtain ⟨S, hS⟩ := Option.isSome_iff_exists.mp hsu
    refine psSubscribeFlags_exists ha.ok ha.refOk hw hS (hflags hin) fun u hu i hi => ?_
    obtain ⟨hrefs, hlive⟩ := ha.refOk hw i
    have hpos : 0 < c.bus.account c.held i := by
      have := stickies_pos hi
      simp only [Bus.account, Pi.add_apply]
      omega
    obtain ⟨m, hm⟩ := Option.isSome_iff_exists.mp (hlive.mpr hpos)
    rw [Messages.refs_of_get hm] at hrefs
    rw [← hrefs]
    exact hroom u hu i m hi hm

/-- A `ps_sub_flags_t` with a priority that the digit of the topic string overrides. -/
theorem priorities_in_range_digit : ∃ (h : List Label) (c : Client Bucket.Queue),
    Run (fun c e c' => c.step e.1 = some (e.2, c') ∧ PriorityOk c.bus e.1) Client.start h c ∧
    entriesAt c.bus.topicMap "a".toList = [⟨0, false, false, 9⟩] ∧
    ∀ name, ∀ sl ∈ entriesAt c.bus.topicMap name, ∀ q : Bucket.Queue MsgId,
      ∀ i ∈ Bucket.pushIndices q sl.priority.toUInt8, i < Bucket.PRIORITIES := by
  have hentries : (exec (Client.step (Q := Bucket.Queue)) [.newSubscriber 1 none,
      .subscribeFlags 0 "a p9".toList (some ⟨false, false, false, false, 200⟩)] Client.start).map
        (fun (_, c) => entriesAt c.bus.topicMap "a".toList) = some [⟨0, false, false, 9⟩] := by
    decide +kernel
  obtain ⟨⟨rs, c⟩, hexec, hentries⟩ := Option.map_eq_some_iff.mp hentries
  have hdigit : (subFlags "a p9".toList (some ⟨false, false, false, false, 200⟩)).priority.toNat <
      Bucket.PRIORITIES := by decide
  have hrun := run_of_exec_all (P := fun c op => PriorityOk c.bus op) hexec fun c op hop => by
    simp only [List.mem_cons, List.not_mem_nil, or_false] at hop
    rcases hop with rfl | rfl
    · trivial
    · exact fun _ => hdigit
  exact ⟨_, c, hrun, hentries, (priorities_in_range hrun).1⟩

/-- The priority 200 of a `ps_sub_flags_t` is stored, and the next publish uses it as an
index: it is undefined behaviour. -/
theorem priority_out_of_range : ∃ c : Client Bucket.Queue,
    exec Client.step [.newSubscriber 1 none,
      .subscribeFlags 0 "a".toList (some ⟨false, false, false, false, 200⟩),
      .newMsg (some "a".toList) 0x800 .nil] Client.start =
      some ([.subscriber 0, .int 0, .msg (some 0)], c) ∧
    (entriesAt c.bus.topicMap "a".toList).map (fun sl => sl.priority.toUInt8) = [200] ∧
    (queuesOf c.bus.subscribers 0).map (fun q => Bucket.pushIndices q.raw 200) = some [200] ∧
    ¬ 200 < Bucket.PRIORITIES ∧ psPublish c.bus (some 0) = none :=
  ⟨_, rfl, rfl, rfl, by decide, rfl⟩

end Client

end PubSub
