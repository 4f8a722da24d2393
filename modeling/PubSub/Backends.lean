import PubSub.Bus.Lockstep
import PubSub.Origins
import PubSub.Queue.NodeRuns
import PubSub.Queue.Ordered

/-! The bus does not depend on its backend. If every subscriber subscribes with one priority,
the bus over the ring and the bus over the buckets are the same program; with any priorities,
so are the bus over the buckets as lists and over their nodes. -/

namespace PubSub

open Lib Bus

/-! ### Whole runs -/

section Runs
variable {Q Q' : Type → Type} [PsQueue Q] [LawfulPsQueue Q] [PsQueue Q'] [LawfulPsQueue Q']
variable {P : SubId → UInt8 → Prop} {E : SubId → IdleQueue Q MsgId → IdleQueue Q' MsgId → Prop}

/-- The subscriptions that the call asks for have allowed priorities. -/
def Op.Asks (P : SubId → UInt8 → Prop) (s : Bus Q) (op : Op) : Prop :=
  ∀ sub ∈ (requested s op).2, P (requested s op).1 (subFlags sub.1 sub.2).priority

/-- The runs in which every call asks for allowed priorities. -/
abbrev Bus.Serves (P : SubId → UInt8 → Prop) (s : Bus Q) (h : List Label) (s' : Bus Q) : Prop :=
  Run (fun s e s' => step s e.1 = some (e.2, s') ∧ e.1.Asks P s) s h s'

namespace Lockstep
variable {s : Bus Q} {t : Bus Q'} {op : Op}

theorem asks_iff (h : Lockstep P E s t) : op.Asks P s ↔ op.Asks P t := by
  have hsame : requested t op = requested s op := by
    cases op
    all_goals simp only [requested, h.next, h.uuidCtr]
  rw [Op.Asks, Op.Asks, hsame]

theorem ret {ρ : Type} {x : Option (ρ × Bus Q)} {y : Option (ρ × Bus Q')} (f : ρ → Ret)
    (hxy : InStep (Both (Lockstep P E)) x y) :
    InStep (Both (Lockstep P E)) (x.map fun z => (f z.1, z.2)) (y.map fun z => (f z.1, z.2)) :=
  hxy.map fun _ _ hab => ⟨congrArg f hab.1, hab.2⟩

theorem unit {x : Option (Bus Q)} {y : Option (Bus Q')} (hxy : InStep (Lockstep P E) x y) :
    InStep (Both (Lockstep P E)) (x.map fun s => (Ret.unit, s)) (y.map fun t => (Ret.unit, t)) :=
  hxy.map fun _ _ hab => ⟨rfl, hab⟩

/-- A call that only reads a number. -/
theorem count {x y : Option ℕ} (h : Lockstep P E s t) (hxy : InStep Eq x y) :
    InStep (Both (Lockstep P E)) ((x.bind fun n => some (n : ℤ)).map fun n => (Ret.int n, s))
      ((y.bind fun n => some (n : ℤ)).map fun n => (Ret.int n, t)) := by
  refine (hxy.bind (S := Eq) fun a b hab => ?_).map fun _ _ hab => ⟨congrArg Ret.int hab, h⟩
  exact .some (congrArg _ hab)

/-- A call on the messages alone. -/
theorem onMessages {ρ : Type} (h : Lockstep P E s t) (x : Option ρ) (f : ρ → Ret) (g : ρ → Messages) :
    InStep (Both (Lockstep P E)) (x.map fun z => (f z, { s with messages := g z }))
      (x.map fun z => (f z, { t with messages := g z })) := by
  rw [Option.map_eq_bind, Option.map_eq_bind]
  exact .read fun z _ => .some ⟨rfl, h.setMessages (g z)⟩

/-- One call. -/
theorem step (hQ : QueuesAgree P E) (h : Lockstep P E s t) (hop : op.Asks P s) :
    InStep (Both (Lockstep P E)) (PubSub.step s op) (PubSub.step t op) := by
  have hmany : ∀ {su : SubId} {subs : Option (List Str)},
      (∀ sub ∈ (subs.getD []).map fun x => (x, none), P su (subFlags sub.1 sub.2).priority) →
        ∀ text ∈ subs.getD [], P su (subFlags text none).priority :=
    fun hp text ht => hp (text, none) (List.mem_map_of_mem ht)
  cases op
  case newMsg topic flags args =>
    rw [PubSub.step, PubSub.step, ← h.messages]
    exact h.onMessages _ (fun z => .msg z.1) Prod.snd
  case dupMsg msg =>
    rw [PubSub.step, PubSub.step, ← h.messages]
    exact h.onMessages _ (fun z => .msg (some z.1)) Prod.snd
  case refMsg msg =>
    rw [PubSub.step, PubSub.step, ← h.messages]
    exact h.onMessages _ (fun _ => .msg msg) id
  case unrefMsg msg =>
    rw [PubSub.step, PubSub.step, ← h.messages]
    exact h.onMessages _ (fun _ => .unit) id
  case msgSetTopic msg topic =>
    rw [PubSub.step, PubSub.step, ← h.messages]
    exact h.onMessages _ (fun _ => .unit) id
  case msgSetRtopic msg rtopic =>
    rw [PubSub.step, PubSub.step, ← h.messages]
    exact h.onMessages _ (fun _ => .unit) id
  case msgSetValue msg flags args =>
    rw [PubSub.step, PubSub.step, ← h.messages]
    exact h.onMessages _ (fun _ => .unit) id
  case newSubscriber queueSize subs => exact ret .subscriber (h.newSubscriber hQ (hmany hop))
  case freeSubscriber su => exact unit (h.freeSubscriber hQ)
  case setNewMsgCb su cb => exact unit (h.setNewMsgCb hQ cb)
  case setNonEmptyCb su cb => exact unit (h.setNonEmptyCb hQ cb)
  case get su timeout => exact ret .msg (h.get hQ)
  case flush su => exact ret (fun n : ℕ => .int n) (h.flush hQ)
  case waiting su => exact h.count (h.waiting hQ)
  case overflow su => exact ret .int h.overflow
  case numSubs su => exact h.count h.numSubs
  case subscribe su topic => exact ret .int (h.subscribeFlags hQ (hop _ List.mem_cons_self))
  case subscribeFlags su topic flags => exact ret .int (h.subscribeFlags hQ (hop _ List.mem_cons_self))
  case subscribeMany su subs => exact ret (fun n : ℕ => .int n) (h.subscribeMany hQ (hmany hop))
  case unsubscribe su topic => exact ret .int h.unsubscribe
  case unsubscribeMany su subs => exact ret (fun n : ℕ => .int n) h.unsubscribeMany
  case unsubscribeAll su => exact ret (fun n : ℕ => .int n) h.unsubscribeAll
  case publish msg => exact ret (fun n : ℕ => .int n) (h.publish hQ)
  case cleanSticky pre => exact unit h.cleanSticky
  case subsCount topic =>
    rw [PubSub.step, PubSub.step, ← h.subsCount topic]
    refine h.count (.of_isSome Iff.rfl fun a b ha hb => ?_)
    exact Option.some.inj (ha.symm.trans hb)
  case call msg timeout => exact ret .msg (h.call hQ (hop _ List.mem_cons_self))
  case waitOne topic timeout => exact ret .msg (h.waitOne hQ (hop _ List.mem_cons_self))

/-- Every run over the first backend is one over the second, with the same results. -/
theorem serves {h : List Label} (hQ : QueuesAgree P E) (hr : Bus.init.Serves P h s) :
    ∃ t : Bus Q', Bus.init.Serves P h t ∧ Lockstep P E s t := by
  refine hr.simulated .start fun s e s' t hst hs => ?_
  obtain ⟨⟨r, t'⟩, ht, hr, h'⟩ := (hst.step hQ hs.2).left hs.1
  obtain rfl : e.2 = r := hr
  exact ⟨t', ⟨ht, hst.asks_iff.mp hs.2⟩, h'⟩

/-- And the other way. -/
theorem served_by {h : List Label} (hQ : QueuesAgree P E) (hr : Bus.init.Serves P h t) :
    ∃ s : Bus Q, Bus.init.Serves P h s ∧ Lockstep P E s t := by
  refine hr.simulated (R := fun t s => Lockstep P E s t) .start fun t e t' s hst ht => ?_
  have hop := hst.asks_iff.mpr ht.2
  obtain ⟨⟨r, s'⟩, hs, hr, h'⟩ := (hst.step hQ hop).right ht.1
  obtain rfl : r = e.2 := hr
  exact ⟨s', ⟨hs, hop⟩, h'⟩

end Lockstep

end Runs

/-! ### One priority for each subscriber -/

section Uniform
variable {Q Q' : Type → Type} [PsQueue Q] [LawfulPsQueue Q] [OrderedPsQueue Q]
variable [PsQueue Q'] [LawfulPsQueue Q'] [OrderedPsQueue Q'] {α : Type}

/-- Everything that waits has the rank of `p`. -/
def IdleQueue.Uniform (p : UInt8) (q : IdleQueue Q α) : Prop :=
  ∀ x ∈ q.ranked, x.1 = OrderedPsQueue.rank Q p

/-- With one priority the queue is a FIFO that rejects what it has no room for. -/
theorem IdleQueue.Uniform.push {q q' : IdleQueue Q α} {m : α} {p : UInt8} {ret : QueueRet}
    {d : Option α} (hu : q.Uniform p) (h : q.push m p = some (ret, d, q')) :
    q'.Uniform p ∧ q'.capacity = q.capacity ∧ d = none ∧
      ((q.items.length < q.capacity ∧ ret = .ok ∧ q'.items = q.items ++ [m]) ∨
        (¬ q.items.length < q.capacity ∧ ret = .efull ∧ q'.items = q.items)) := by
  obtain ⟨hranked, hok⟩ := q.push_ranked h
  obtain ⟨hcap, hp⟩ := IdleQueue.push_spec h
  have hkept : ∀ x ∈ q.ranked, ¬ Outranks (OrderedPsQueue.rank Q p, m) x := fun x hx =>
    Nat.not_lt.mpr (hu x hx).ge
  rw [q.length_ranked] at hok
  by_cases hroom : q.items.length < q.capacity
  · have hins : boundedInsert Outranks q.capacity (OrderedPsQueue.rank Q p, m) (q.ranked ++ []) =
        (q.ranked ++ [(OrderedPsQueue.rank Q p, m)], none) :=
      boundedInsert_room hkept (fun _ hx => absurd hx List.not_mem_nil)
        (by rwa [List.append_nil, q.length_ranked])
    rw [List.append_nil] at hins
    rw [hins] at hranked
    obtain rfl := hok.mpr hroom
    have hd := hp.dropped_eq_none (by simp)
    refine ⟨fun x hx => ?_, hcap, hd, .inl ⟨hroom, rfl, ?_⟩⟩
    · rw [hranked] at hx
      rcases List.mem_append.mp hx with hold | hnew
      · exact hu x hold
      · rw [List.mem_singleton.mp hnew]
    · rw [← q'.ranked_items, hranked, List.map_append, q.ranked_items]
      rfl
  · have hins := boundedInsert_reject hkept (n := q.capacity) (by
      rw [q.length_ranked]
      exact Nat.not_lt.mp hroom)
    have hranked : q'.ranked = q.ranked := hranked.trans (congrArg Prod.fst hins)
    have hret : ret = .efull := by
      cases ret with
      | ok => exact absurd (hok.mp rfl) hroom
      | efull => rfl
      | eoverflow =>
        obtain ⟨x, hx, hlt⟩ := OrderedPsQueue.ranked_evict q.ok (IdleQueue.push_eq_some.mp h)
        exact absurd hlt (Nat.not_lt.mpr (hu x hx).ge)
    subst hret
    have hd := hp.dropped_eq_none (by simp)
    refine ⟨fun x hx => hu x (hranked ▸ hx), hcap, hd, .inr ⟨hroom, rfl, ?_⟩⟩
    rw [← q'.ranked_items, hranked, q.ranked_items]

/-- The same messages in the same order, all of the rank of `p`. -/
structure UniformAlike (p : UInt8) (a : IdleQueue Q α) (b : IdleQueue Q' α) : Prop where
  capacity : a.capacity = b.capacity
  items : a.items = b.items
  uniform : a.Uniform p
  uniform' : b.Uniform p

/-- With one priority for each subscriber, all backends agree. -/
theorem uniform_agree {prio : SubId → UInt8} (hprio : ∀ su, prio su ≤ 9) :
    QueuesAgree (fun su p => p = prio su) fun su (a : IdleQueue Q MsgId) (b : IdleQueue Q' MsgId) =>
      UniformAlike (prio su) a b where
  new su n := by
    refine ⟨?_, ?_, fun x hx => ?_, fun x hx => ?_⟩
    · rw [IdleQueue.capacity_new, IdleQueue.capacity_new]
    · rw [IdleQueue.items_new, IdleQueue.items_new]
    · rw [IdleQueue.ranked_new] at hx
      cases hx
    · rw [IdleQueue.ranked_new] at hx
      cases hx
  push su a b m p hab hp := by
    have hlt : p.toNat < 10 := by
      have := UInt8.le_iff_toNat_le.mp (hprio su)
      rw [← hp] at this
      exact Nat.lt_succ_of_le this
    subst hp
    have hreturns : ∀ {Q : Type → Type} [PsQueue Q] [LawfulPsQueue Q] (q : IdleQueue Q MsgId),
        (q.push m (prio su)).isSome := by
      intro Q _ _ q
      obtain ⟨ret, d, q', hq⟩ := q.push_isSome m hlt
      rw [hq]
      rfl
    refine .of_isSome (iff_of_true (hreturns a) (hreturns b)) ?_
    rintro ⟨ret, d, a'⟩ ⟨ret', d', b'⟩ ha hb
    obtain ⟨hu, hcap, rfl, hcase⟩ := hab.uniform.push ha
    obtain ⟨hu', hcap', rfl, hcase'⟩ := hab.uniform'.push hb
    have hcaps : a'.capacity = b'.capacity := hcap.trans (hab.capacity.trans hcap'.symm)
    rcases hcase with ⟨hroom, rfl, hitems⟩ | ⟨hfull, rfl, hitems⟩
    · rcases hcase' with ⟨-, rfl, hitems'⟩ | ⟨hfull', -, -⟩
      · exact ⟨rfl, rfl, hcaps, by rw [hitems, hitems', hab.items], hu, hu'⟩
      · rw [hab.items, hab.capacity] at hroom
        exact absurd hroom hfull'
    · rcases hcase' with ⟨hroom', -, -⟩ | ⟨-, rfl, hitems'⟩
      · rw [hab.items, hab.capacity] at hfull
        exact absurd hroom' hfull
      · exact ⟨rfl, rfl, hcaps, by rw [hitems, hitems', hab.items], hu, hu'⟩
  pull su a b t hab := by
    refine .of_isSome ?_ ?_
    · rw [a.pull_isSome_iff, b.pull_isSome_iff, a.waiting_eq, b.waiting_eq, hab.items]
    · rintro ⟨m, a'⟩ ⟨m', b'⟩ ha hb
      obtain ⟨hm, htail, hcap⟩ := IdleQueue.pull_ranked ha
      obtain ⟨hm', htail', hcap'⟩ := IdleQueue.pull_ranked hb
      refine ⟨?_, hcap.trans (hab.capacity.trans hcap'.symm), ?_, fun x hx => ?_, fun x hx => ?_⟩
      · show m = m'
        rw [hm, hm', ← List.head?_map, ← List.head?_map, a.ranked_items, b.ranked_items, hab.items]
      · show a'.items = b'.items
        rw [← a'.ranked_items, ← b'.ranked_items, htail, htail', List.map_tail, List.map_tail,
          a.ranked_items, b.ranked_items, hab.items]
      · exact hab.uniform x (List.mem_of_mem_tail (htail ▸ hx))
      · exact hab.uniform' x (List.mem_of_mem_tail (htail' ▸ hx))
  waiting su a b hab := by
    rw [a.waiting_eq, b.waiting_eq, hab.items]

/-- If every subscriber subscribes with one priority, up to 9, then whatever the bus does over
one backend it does over the other: the same results, topics, messages, counters and
callbacks, and queues with the same messages in the same order. -/
theorem backend_replaceable {prio : SubId → UInt8} (hprio : ∀ su, prio su ≤ 9) {h : List Label}
    {s : Bus Q} (hr : Bus.init.Serves (fun su p => p = prio su) h s) :
    ∃ t : Bus Q', Bus.init.Serves (fun su p => p = prio su) h t ∧
      Lockstep (fun su p => p = prio su) (fun su => UniformAlike (prio su)) s t :=
  Lockstep.serves (uniform_agree hprio) hr

end Uniform

/-- A queue of one that rejects the second message, with priority 3. -/
theorem backend_replaceable_full : ∃ (h : List Label) (s : Bus Bucket.Queue) (t : Bus Ring.Queue),
    h = [(.newSubscriber 1 (some ["a p3".toList]), .subscriber 0),
      (.newMsg (some "a".toList) 0 .nil, .msg (some 0)), (.publish (some 0), .int 1),
      (.newMsg (some "a".toList) 0 .nil, .msg (some 1)), (.publish (some 1), .int 0),
      (.overflow 0, .int 1), (.get 0 0, .msg (some 0))] ∧
    Bus.init.Reaches h s ∧ Bus.init.Reaches h t ∧
    Lockstep (fun _ p => p = 3) (fun _ => UniformAlike 3) s t := by
  have hcalls : (exec (step (Q := Bucket.Queue)) [.newSubscriber 1 (some ["a p3".toList]),
      .newMsg (some "a".toList) 0 .nil, .publish (some 0), .newMsg (some "a".toList) 0 .nil,
      .publish (some 1), .overflow 0, .get 0 0] Bus.init).map Prod.fst =
      some [.subscriber 0, .msg (some 0), .int 1, .msg (some 1), .int 0, .int 1, .msg (some 0)] := by
    decide +kernel
  obtain ⟨⟨rs, s⟩, hexec, rfl⟩ := Option.map_eq_some_iff.mp hcalls
  have hr := run_of_exec hexec
  have hserves : Bus.init.Serves (fun _ p => p = 3) _ s :=
    run_of_exec_all (P := fun s op => op.Asks (fun _ p => p = 3) s) hexec fun s op hop => by
      simp only [List.mem_cons, List.not_mem_nil, or_false] at hop
      rcases hop with rfl | rfl | rfl | rfl | rfl | rfl | rfl
      · intro sub hsub
        obtain rfl := List.mem_singleton.mp hsub
        decide
      all_goals exact fun sub hsub => absurd hsub List.not_mem_nil
  obtain ⟨t, ht, hst⟩ : ∃ t : Bus Ring.Queue, Bus.init.Serves (fun _ p => p = 3) _ t ∧
      Lockstep (fun _ p => p = 3) (fun _ => UniformAlike 3) s t :=
    backend_replaceable (fun _ => by decide) hserves
  exact ⟨_, s, t, rfl, hr, ht.mono fun _ _ _ _ hs => hs.1, hst⟩

/-! ### The buckets in their nodes -/

namespace Nodes
variable {α : Type} {q : Queue α}

theorem psQueuePush_toBucket (h : Rep q none q.toBucket none) (m : α) (p : UInt8) :
    PsQueue.psQueuePush q.toBucket m p =
      (PsQueue.psQueuePush q m p).map fun x => (x.1, x.2.1, x.2.2.toBucket) := by
  have hagree := psQueuePush_agree h m p
  show Bucket.psQueuePush q.toBucket m p = (psQueuePush q m p).map _
  generalize psQueuePush q m p = r at hagree
  generalize Bucket.psQueuePush q.toBucket m p = R at hagree
  cases hagree with
  | none => rfl
  | @some r R hr =>
    obtain ⟨hret, hdropped, hrep⟩ := hr
    rw [Option.map_some, hret, hdropped, hrep.toBucket_eq]

theorem psQueuePull_toBucket (h : Rep q none q.toBucket none) (timeout : Int64) :
    PubSub.psQueuePull q.toBucket timeout =
      (PubSub.psQueuePull q timeout).map fun x => (x.1, x.2.toBucket) := by
  rw [PubSub.psQueuePull, PubSub.psQueuePull]
  have hsem : PsQueue.notEmpty q = PsQueue.notEmpty q.toBucket := h.notEmpty_eq
  rw [hsem]
  cases semaphoreWait (PsQueue.notEmpty q.toBucket) timeout.toInt32 with
  | none => rfl
  | some y =>
    have hset := h.setNotEmpty y.2
    simp only [Option.bind_eq_bind, Option.bind_some]
    split
    · exact congrArg some (Prod.ext rfl hset.toBucket_eq.symm)
    · obtain ⟨q', hget, hq', -⟩ := get_rep hset.self
      have hlists : PsQueue.pullLocked (PsQueue.setNotEmpty q.toBucket y.2) =
          some (Bucket.bqueueGet { q.toBucket with notEmpty := y.2 }) := rfl
      have hnodes : PsQueue.pullLocked (PsQueue.setNotEmpty q y.2) =
          some ((Bucket.bqueueGet ({ q with notEmpty := y.2 } : Queue α).toBucket).1, q') := hget
      rw [hlists, hnodes, Option.map_some, hq', hset.toBucket_eq]

/-- The queue of lists that the pointers make up. -/
def OnLists (a : IdleQueue Queue α) (b : IdleQueue Bucket.Queue α) : Prop := b.raw = a.raw.toBucket

theorem nodes_agree :
    QueuesAgree (fun _ _ => True) fun _ (a : IdleQueue Queue MsgId) b => OnLists a b where
  new su n := (rep_new n).toBucket_eq.symm
  push su a b m p hab _ := by
    have hpush := psQueuePush_toBucket a.ok.1 m p
    rw [← hab] at hpush
    refine .of_isSome ?_ ?_
    · rw [a.push_isSome_eq, b.push_isSome_eq, hpush, Option.isSome_map]
    · rintro ⟨ret, d, a'⟩ ⟨ret', d', b'⟩ ha hb
      rw [IdleQueue.push_eq_some.mp ha, IdleQueue.push_eq_some.mp hb, Option.map_some] at hpush
      simp only [Option.some.injEq, Prod.mk.injEq] at hpush
      exact ⟨hpush.1.symm, hpush.2.1.symm, hpush.2.2⟩
  pull su a b t hab := by
    have hpull := psQueuePull_toBucket a.ok.1 t
    have hwaiting : a.waiting = b.waiting := by
      rw [IdleQueue.waiting, IdleQueue.waiting, hab]
      rfl
    rw [← hab] at hpull
    refine .of_isSome (by rw [a.pull_isSome_iff, b.pull_isSome_iff, hwaiting]) ?_
    rintro ⟨m, a'⟩ ⟨m', b'⟩ ha hb
    rw [IdleQueue.pull_eq_some.mp ha, IdleQueue.pull_eq_some.mp hb, Option.map_some] at hpull
    simp only [Option.some.injEq, Prod.mk.injEq] at hpull
    exact ⟨hpull.1.symm, hpull.2⟩
  waiting su a b hab := by
    rw [IdleQueue.waiting, IdleQueue.waiting, hab]
    rfl

/-- The release of a queue with no pull in flight passes on the messages that wait, each
once, and frees every node. -/
theorem psFreeQueue_idle (q : IdleQueue Queue α) : ∃ l nodes,
    psFreeQueue q.raw = some (l, nodes) ∧ l.Perm q.items ∧ ∀ i, nodes.get i = none := by
  obtain ⟨nodes, hfree, hempty⟩ := psFreeQueue_rep q.ok.1
  exact ⟨_, nodes, hfree, Bucket.psFreeQueue_perm q.raw.toBucket, hempty⟩

end Nodes

/-- The bus with all its queues in nodes and pointers does exactly what it does with the queues
as lists: each has the runs of the other, with the same state but for the queues, and every
queue is the list that its pointers make up. At any time the release of a subscriber's queue
passes on its messages, each once, and leaves none of its nodes. -/
theorem bus_over_nodes (h : List Label) :
    (∀ s : Bus Nodes.Queue, Bus.init.Reaches h s →
      (∃ t : Bus Bucket.Queue, Bus.init.Reaches h t ∧
        Lockstep (fun _ _ => True) (fun _ => Nodes.OnLists) s t) ∧
      ∀ su S, s.subscribers.get su = some S → ∃ l nodes,
        Nodes.psFreeQueue S.q.raw = some (l, nodes) ∧ l.Perm S.q.items ∧ ∀ i, nodes.get i = none) ∧
    ∀ t : Bus Bucket.Queue, Bus.init.Reaches h t → ∃ s : Bus Nodes.Queue, Bus.init.Reaches h s ∧
      Lockstep (fun _ _ => True) (fun _ => Nodes.OnLists) s t := by
  have hany : ∀ {Q : Type → Type} [PsQueue Q] [LawfulPsQueue Q] {s : Bus Q},
      Bus.init.Reaches h s → Bus.init.Serves (fun _ _ => True) h s :=
    fun hr => hr.mono fun _ _ _ _ hs => ⟨hs, fun _ _ => trivial⟩
  refine ⟨fun s hr => ⟨?_, fun su S _ => Nodes.psFreeQueue_idle S.q⟩, fun t hr => ?_⟩
  · obtain ⟨t, ht, hst⟩ := Lockstep.serves Nodes.nodes_agree (hany hr)
    exact ⟨t, ht.mono fun _ _ _ _ hs => hs.1, hst⟩
  · obtain ⟨s, hs, hst⟩ := Lockstep.served_by Nodes.nodes_agree (hany hr)
    exact ⟨s, hs.mono fun _ _ _ _ hs => hs.1, hst⟩

end PubSub
