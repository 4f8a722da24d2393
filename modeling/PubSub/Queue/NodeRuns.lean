import PubSub.Queue.Concurrent
import PubSub.Queue.Nodes

/-! The bucket queue in its nodes from the first call to the last: the queue that
`ps_new_queue` makes, what `ps_free_queue` leaves, every interleaving between them, and the
contract of a backend. -/

namespace PubSub.Nodes

open Lib
open Bucket (PRIORITIES)

variable {α : Type}

/-! ### A queue from its first call to its last -/

theorem appendNodes_rep {q : Queue α} {Q : Bucket.Queue α} (h : Rep q none Q none) (sz : ℕ) :
    ∃ q', appendNodes sz q = some q' ∧ Rep q' none (Bucket.appendNodes sz Q) none := by
  induction sz generalizing q Q with
  | zero => exact ⟨q, rfl, h⟩
  | succ sz ih =>
    obtain ⟨lists, hl, rfl, -⟩ := h
    have halloc : Rep { q with nodes := q.nodes.alloc ⟨none, none, none⟩ } (some q.nodes.next)
        (q.toLists lists) (some ⟨none⟩) := by
      refine ⟨lists, hl.alloc _, ?_, ?_⟩
      · have hold : ∀ x, nodesOf (q.nodes.alloc ⟨none, none, none⟩) (lists x) =
            nodesOf q.nodes (lists x) := fun x => nodesOf_congr fun n hn => by
          have hne : n ≠ q.nodes.next := by
            rintro rfl
            have hlive := hl.live hn
            rw [Cells.get_next] at hlive
            cases hlive
          rw [Hook.bodyAt, Cells.get_alloc, if_neg hne, Hook.bodyAt]
        simp only [Queue.toLists, hold]
      · rw [Option.map_some, Hook.bodyAt, Cells.get_alloc_self]
        rfl
    obtain ⟨c, head, happ, hrep⟩ := halloc.append none
    obtain ⟨q', hq', hrep'⟩ := ih hrep
    refine ⟨q', ?_, hrep'⟩
    have happ : dlAppend (hook α) (q.nodes.alloc ⟨none, none, none⟩) q.available q.nodes.next =
      some (c, head) := happ
    simp only [appendNodes, happ, Option.bind_eq_bind, Option.bind_some]
    exact hq'

theorem psNewQueue_rep (sz : ℕ) :
    ∃ q : Queue α, psNewQueue sz = some q ∧ Rep q none (Bucket.psNewQueue sz) none :=
  appendNodes_rep ⟨fun _ => [], by
    have hempty := DLists.empty (L := hook α) (ι := Option (Fin PRIORITIES))
    have hhead : (⟨.empty, fun _ => none, none, semaphoreInit 0⟩ : Queue α).head = fun _ => none :=
      funext fun x => by cases x <;> rfl
    rw [hhead]
    exact hempty, rfl, rfl⟩ sz

theorem psNewQueue_isSome (sz : ℕ) : (psNewQueue sz : Option (Queue α)).isSome := by
  obtain ⟨q, hnew, -⟩ := psNewQueue_rep (α := α) sz
  rw [hnew]
  rfl

section Free
variable {q : Queue α} {lists : Option (Fin PRIORITIES) → List ℕ}

/-- A first node that is deleted and freed. -/
theorem release_first {x : Option (Fin PRIORITIES)} {n : ℕ} {k : List ℕ}
    (h : DLists (hook α) q.nodes q.head lists none) (hx : lists x = n :: k) :
    ∃ c head c', q.head x = some n ∧ dlDelete (hook α) q.nodes (some n) n = some (c, head) ∧
      c.release n = some c' ∧
      DLists (hook α) c' (q.put c' head x).head (Function.update lists x k) none ∧
      ∀ m, m ≠ n → (hook α).bodyAt c' m = (hook α).bodyAt q.nodes m := by
  have hhead : q.head x = some n := by rw [(h.list x).head_eq, hx]; rfl
  obtain ⟨c, hdel, hl, hbody, -⟩ := h.delete (a := []) hx
  obtain ⟨c', hc', hl', -, hframe⟩ := hl.release
  rw [hhead] at hdel
  refine ⟨c, _, c', hhead, hdel, hc', ?_, fun m hm => ?_⟩
  · rw [head_put]
    exact hl'
  · rw [Hook.bodyAt, hframe m hm, ← hbody, Hook.bodyAt]

/-- The loop over the list of one priority frees its nodes and drops their messages. -/
theorem freeRow (h : DLists (hook α) q.nodes q.head lists none) (i : Fin PRIORITIES) (ms : List α) :
    ∃ q', dlForeachSafe (hook α) (fun s => s.2.nodes) (freeNode i) q.nodes.next (q.priorities i)
        (ms, q) = some (ms ++ (nodesOf q.nodes (lists (some i))).filterMap Bucket.Node.msg, q') ∧
      DLists (hook α) q'.nodes q'.head (Function.update lists (some i) []) none ∧
      ∀ m, m ∉ lists (some i) → (hook α).bodyAt q'.nodes m = (hook α).bodyAt q.nodes m := by
  let P : List ℕ → List α × Queue α → Prop := fun k s =>
    s.1 ++ (nodesOf q.nodes k).filterMap Bucket.Node.msg =
      ms ++ (nodesOf q.nodes (lists (some i))).filterMap Bucket.Node.msg ∧
    k ⊆ lists (some i) ∧
    DLists (hook α) s.2.nodes s.2.head (Function.update lists (some i) k) none ∧
    ∀ m, m ∉ lists (some i) ∨ m ∈ k → (hook α).bodyAt s.2.nodes m = (hook α).bodyAt q.nodes m
  have hround : ∀ n k s, P (n :: k) s → (hook α).nextAt s.2.nodes n = some k.head? ∧
      ∃ s', freeNode i n s = some s' ∧ P k s' := by
    rintro n k ⟨ms', q'⟩ ⟨hms, hsub, hl, hbody⟩
    have hk : Function.update lists (some i) (n :: k) (some i) = n :: k := Function.update_self _ _ _
    have hlist := hl.list (some i)
    rw [hk] at hlist
    have hnext : (hook α).nextAt q'.nodes n = some k.head? := by
      have hnext := hlist.linked.2.1
      rwa [Option.or_none] at hnext
    obtain ⟨c, head, c', hhead, hdel, hc', hl', hother⟩ := release_first hl hk
    have hhead : q'.priorities i = some n := hhead
    have hn := hbody n (.inr List.mem_cons_self)
    obtain ⟨msg, hmsg⟩ : ∃ msg, (hook α).bodyAt q.nodes n = some msg := by
      rw [← Option.isSome_iff_exists, ← hn, Hook.isSome_bodyAt]
      exact hlist.live List.mem_cons_self
    rw [hmsg] at hn
    refine ⟨hnext, (ms' ++ msg.toList, q'.put c' head (some i)), ?_, ?_, ?_, ?_, ?_⟩
    · simp only [freeNode, hn, hhead, hdel, hc', Option.bind_eq_bind, Option.bind_some]
      rfl
    · rw [← hms, nodesOf, nodesOf, List.map_cons, hmsg, List.append_assoc]
      cases msg <;> rfl
    · exact fun m hm => hsub (List.mem_cons_of_mem n hm)
    · rw [Function.update_idem] at hl'
      rw [nodes_put]
      exact hl'
    · intro m hm
      have hne : m ≠ n := by
        rintro rfl
        rcases hm with hm | hm
        · exact hm (hsub List.mem_cons_self)
        · exact (List.nodup_cons.mp hlist.nodup).1 hm
      rw [nodes_put, hother m hne]
      exact hbody m (hm.imp_right (List.mem_cons_of_mem n))
  have hstart : P (lists (some i)) (ms, q) := by
    refine ⟨rfl, List.Subset.refl _, ?_, fun _ _ => rfl⟩
    rw [Function.update_eq_self]
    exact h
  obtain ⟨⟨ms', q'⟩, hloop, hms, -, hl, hbody⟩ := dlForeachSafe_rule (L := hook α) P hround hstart
    (h.list (some i)).length_le
  refine ⟨q', ?_, hl, fun m hm => hbody m (.inl hm)⟩
  have hhead : q.priorities i = (lists (some i)).head? := (h.list (some i)).head_eq
  have hms : ms' = ms ++ (nodesOf q.nodes (lists (some i))).filterMap Bucket.Node.msg := by
    simpa [nodesOf] using hms
  rw [hhead, hloop, hms]

/-- The loops over the lists of the priorities `js`. -/
theorem freeRows {js : List (Fin PRIORITIES)} (hd : js.Nodup)
    (h : DLists (hook α) q.nodes q.head lists none) (ms : List α) :
    ∃ q' lists', js.foldlM (fun s i => dlForeachSafe (hook α) (fun s => s.2.nodes) (freeNode i)
        s.2.nodes.next (s.2.priorities i) s) (ms, q) =
        some (ms ++ js.flatMap fun i => (nodesOf q.nodes (lists (some i))).filterMap Bucket.Node.msg,
          q') ∧
      DLists (hook α) q'.nodes q'.head lists' none ∧ (∀ i ∈ js, lists' (some i) = []) ∧
      ∀ x, (∀ i ∈ js, x ≠ some i) → lists' x = lists x := by
  induction js generalizing q lists ms with
  | nil => exact ⟨q, lists, by simp, h, nofun, fun _ _ => rfl⟩
  | cons i js ih =>
    obtain ⟨hi, hd⟩ := List.nodup_cons.mp hd
    obtain ⟨q₁, hrow, hl₁, hbody⟩ := freeRow h i ms
    obtain ⟨q', lists', hrows, hl', hnil, hsame⟩ := ih hd hl₁
      (ms ++ (nodesOf q.nodes (lists (some i))).filterMap Bucket.Node.msg)
    have hrest : ∀ j ∈ js, nodesOf q₁.nodes (Function.update lists (some i) [] (some j)) =
        nodesOf q.nodes (lists (some j)) := by
      intro j hj
      have hne : (some j : Option (Fin PRIORITIES)) ≠ some i := by
        simpa using ne_of_mem_of_not_mem hj hi
      rw [Function.update_of_ne hne]
      exact nodesOf_congr fun m hm => hbody m fun hm' => hne (h.apart _ _ m hm hm')
    refine ⟨q', lists', ?_, hl', fun j hj => ?_, fun x hx => ?_⟩
    · rw [List.foldlM_cons, hrow, Option.bind_eq_bind, Option.bind_some, hrows, List.flatMap_cons,
        List.append_assoc, List.flatMap_congr fun j hj => by rw [hrest j hj]]
    · rcases List.mem_cons.mp hj with rfl | hj
      · rw [hsame (some j) fun k hk => by simpa using (ne_of_mem_of_not_mem hk hi).symm,
          Function.update_self]
      · exact hnil j hj
    · rw [hsame x fun j hj => hx j (List.mem_cons_of_mem i hj),
        Function.update_of_ne (hx i List.mem_cons_self)]

/-- The loop over the free list. -/
theorem freeAvailable_all (h : DLists (hook α) q.nodes q.head lists none) :
    ∃ q', dlForeachSafe (hook α) Queue.nodes freeAvailable q.nodes.next q.available q = some q' ∧
      DLists (hook α) q'.nodes q'.head (Function.update lists none []) none := by
  let P : List ℕ → Queue α → Prop := fun k s =>
    DLists (hook α) s.nodes s.head (Function.update lists none k) none
  have hround : ∀ n k s, P (n :: k) s → (hook α).nextAt s.nodes n = some k.head? ∧
      ∃ s', freeAvailable n s = some s' ∧ P k s' := by
    intro n k s hl
    have hk : Function.update lists none (n :: k) none = n :: k := Function.update_self _ _ _
    have hlist := hl.list none
    rw [hk] at hlist
    have hnext : (hook α).nextAt s.nodes n = some k.head? := by
      have hnext := hlist.linked.2.1
      rwa [Option.or_none] at hnext
    obtain ⟨c, head, c', hhead, hdel, hc', hl', -⟩ := release_first hl hk
    have hhead : s.available = some n := hhead
    refine ⟨hnext, s.put c' head none, ?_, ?_⟩
    · simp only [freeAvailable, hhead, hdel, hc', Option.bind_eq_bind, Option.bind_some]
      rfl
    · rw [Function.update_idem] at hl'
      exact hl'
  have hstart : P (lists none) q := by
    show DLists (hook α) q.nodes q.head (Function.update lists none (lists none)) none
    rw [Function.update_eq_self]
    exact h
  obtain ⟨q', hloop, hl⟩ := dlForeachSafe_rule (L := hook α) P hround hstart
    (h.list none).length_le
  have hhead : q.available = (lists none).head? := (h.list none).head_eq
  exact ⟨q', by rw [hhead, hloop], hl⟩

end Free

/-- `ps_free_queue` drops the messages that are queued, each once, and frees every node. -/
theorem psFreeQueue_rep {q : Queue α} {Q : Bucket.Queue α} (h : Rep q none Q none) :
    ∃ c, psFreeQueue q = some (Bucket.psFreeQueue Q, c) ∧ ∀ n, c.get n = none := by
  obtain ⟨lists, hl, rfl, -⟩ := h
  obtain ⟨q₁, lists₁, hrows, hl₁, hnil, -⟩ := freeRows (List.nodup_finRange PRIORITIES) hl []
  obtain ⟨q₂, havail, hl₂⟩ := freeAvailable_all hl₁
  refine ⟨q₂.nodes, ?_, fun n => ?_⟩
  · simp only [psFreeQueue, hrows, havail, Option.bind_eq_bind, Option.bind_some, List.nil_append]
    rfl
  · rw [← Option.not_isSome_iff_eq_none, hl₂.cover n]
    rintro (hloose | ⟨x, hx⟩)
    · cases hloose
    · cases x with
      | none =>
        rw [Function.update_self] at hx
        cases hx
      | some i =>
        rw [Function.update_of_ne (by simp), hnil i (List.mem_finRange i)] at hx
        cases hx

/-! ### The backend -/

/-- The queue of `Bucket` that the pointers make up. -/
def Queue.toBucket (q : Queue α) : Bucket.Queue α :=
  q.toLists fun x => dlNodes (hook α) q.nodes q.nodes.next (q.head x)

theorem Rep.toBucket_eq {q : Queue α} {Q : Bucket.Queue α} (h : Rep q none Q none) :
    q.toBucket = Q := by
  obtain ⟨lists, hl, rfl, -⟩ := h
  exact congrArg q.toLists (funext fun x => (hl.list x).nodes_eq)

theorem Rep.self {q : Queue α} {Q : Bucket.Queue α} (h : Rep q none Q none) :
    Rep q none q.toBucket none := by
  rw [h.toBucket_eq]
  exact h

instance : PsQueue Queue where
  psNewQueue n := (psNewQueue n).get (psNewQueue_isSome n)
  psFreeQueue q := (psFreeQueue q).map Prod.fst
  psQueuePush := psQueuePush
  notEmpty := Queue.notEmpty
  setNotEmpty q s := { q with notEmpty := s }
  pullLocked := bqueueGet
  psQueueWaiting := psQueueWaiting

theorem takeToken_agree {q : Queue α} {Q : Bucket.Queue α} (h : Rep q none Q none) :
    Option.Rel (fun q Q => Rep q none Q none) (takeToken q) (takeToken Q) := by
  have hsem : PsQueue.notEmpty q = PsQueue.notEmpty Q := h.notEmpty_eq
  rw [takeToken, takeToken, hsem]
  cases semaphoreTake (PsQueue.notEmpty Q) with
  | none => exact .none
  | some sem => exact .some (h.setNotEmpty sem)

/-- A thread does the same on the nodes as on the lists. -/
theorem threadStep_agree {q : Queue α} {Q : Bucket.Queue α} (h : Rep q none Q none)
    (inFlight : List ℕ) (op : ThreadOp α) :
    Option.Rel (fun r R => r.1 = R.1 ∧ r.2.inFlight = R.2.inFlight ∧ Rep r.2.queue none R.2.queue none)
      (threadStep ⟨q, inFlight⟩ op) (threadStep ⟨Q, inFlight⟩ op) := by
  cases op with
  | push m p =>
    have hpush := psQueuePush_agree h m p
    rw [threadStep, threadStep]
    show Option.Rel _ ((psQueuePush q m p).bind _) ((Bucket.psQueuePush Q m p).bind _)
    generalize psQueuePush q m p = r at hpush
    generalize Bucket.psQueuePush Q m p = R at hpush
    cases hpush with
    | none => exact .none
    | @some r R hr =>
      obtain ⟨ret, d, q'⟩ := r
      obtain ⟨Ret, D, Q'⟩ := R
      obtain ⟨rfl, rfl, hrep⟩ := hr
      exact .some ⟨rfl, rfl, hrep⟩
  | take t =>
    have htake := takeToken_agree h
    rw [threadStep, threadStep]
    split
    · exact .none
    · generalize takeToken q = r at htake
      generalize takeToken Q = R at htake
      cases htake with
      | none => exact .none
      | some hrep => exact .some ⟨rfl, rfl, hrep⟩
  | lock t =>
    have hget := bqueueGet_agree h
    rw [threadStep, threadStep]
    split
    · show Option.Rel _ ((bqueueGet q).bind _) ((some (Bucket.bqueueGet Q)).bind _)
      generalize bqueueGet q = r at hget
      generalize Bucket.bqueueGet Q = R at hget
      cases hget with
      | @some r _ hr =>
        obtain ⟨m, q'⟩ := r
        obtain ⟨hm, hrep⟩ := hr
        exact .some ⟨congrArg _ hm, rfl, hrep⟩
    · exact .none

/-- The queue and the threads, with the queue as lists. -/
def onLists (s : Shared Queue α) : Shared Bucket.Queue α := ⟨s.queue.toBucket, s.inFlight⟩

/-- Under every interleaving of the steps of all threads, from a queue of `n` nodes on: the
nodes do what the lists of `Bucket` do, step by step and with the same results, and no step
goes through a pointer that is NULL or dangling unless an index leaves `priorities` on the
lists as well. Freed at any time, the queue drops the messages that are queued, each once,
and frees every node of its heap once. -/
theorem refines_bucket (n : ℕ) : ∃ q₀ : Queue α, psNewQueue n = some q₀ ∧
    ∀ h s, Interleaving ⟨q₀, []⟩ h s →
      Interleaving (Q := Bucket.Queue) ⟨Bucket.psNewQueue n, []⟩ h (onLists s) ∧
      (∀ op, (threadStep s op).map (fun x => (x.1, onLists x.2)) = threadStep (onLists s) op) ∧
      ∃ nodes, psFreeQueue s.queue = some (Bucket.psFreeQueue s.queue.toBucket, nodes) ∧
        ∀ i, nodes.get i = none := by
  obtain ⟨q₀, hnew, hrep₀⟩ := psNewQueue_rep (α := α) n
  refine ⟨q₀, hnew, fun h s hr => ?_⟩
  have hstep : ∀ (s : Shared Queue α) op, Rep s.queue none s.queue.toBucket none →
      (threadStep s op).map (fun x => (x.1, onLists x.2)) = threadStep (onLists s) op ∧
      ∀ r s', threadStep s op = some (r, s') → Rep s'.queue none s'.queue.toBucket none := by
    intro s op hrep
    have hagree := threadStep_agree hrep s.inFlight op
    have hs : onLists s = ⟨s.queue.toBucket, s.inFlight⟩ := rfl
    rw [← hs] at hagree
    generalize hx : threadStep s op = r at hagree
    generalize threadStep (onLists s) op = R at hagree
    cases hagree with
    | none => exact ⟨rfl, nofun⟩
    | @some r R hr =>
      obtain ⟨ret, s'⟩ := r
      obtain ⟨Ret, ⟨Q', fl⟩⟩ := R
      obtain ⟨rfl, rfl, hrep'⟩ := hr
      refine ⟨by rw [Option.map_some, onLists, hrep'.toBucket_eq], fun ret s' heq => ?_⟩
      cases heq
      exact hrep'.self
  have hrun : Rep s.queue none s.queue.toBucket none ∧
      Interleaving (Q := Bucket.Queue) ⟨Bucket.psNewQueue n, []⟩ h (onLists s) := by
    induction hr with
    | nil =>
      refine ⟨hrep₀.self, ?_⟩
      rw [onLists, hrep₀.toBucket_eq]
      exact .nil
    | @snoc h t u e _ hs ih =>
      obtain ⟨hmap, hnext⟩ := hstep t e.1 ih.1
      refine ⟨hnext _ _ hs, ih.2.snoc ?_⟩
      rw [← hmap, hs]
      rfl
  exact ⟨hrun.2, fun op => (hstep s op hrun.1).1, psFreeQueue_rep hrun.1⟩

/-! ### The contract -/

section Contract
variable {q q' : Queue α} {k : ℕ}

theorem rep_new (n : ℕ) :
    Rep (PsQueue.psNewQueue n : Queue α) none (PsQueue.psNewQueue n : Bucket.Queue α) none := by
  obtain ⟨q, hnew, hrep⟩ := psNewQueue_rep (α := α) n
  have hq : (PsQueue.psNewQueue n : Queue α) = q := Option.get_of_eq_some _ hnew
  rw [hq]
  exact hrep

theorem push_rep {m : α} {p : UInt8} {ret : QueueRet} {d : Option α}
    (h : Rep q none q.toBucket none) (hp : psQueuePush q m p = some (ret, d, q')) :
    Bucket.psQueuePush q.toBucket m p = some (ret, d, q'.toBucket) ∧
      Rep q' none q'.toBucket none := by
  have hagree := psQueuePush_agree h m p
  rw [hp] at hagree
  generalize Bucket.psQueuePush q.toBucket m p = R at hagree
  cases hagree with
  | @some _ R hr =>
    obtain ⟨Ret, D, Q'⟩ := R
    obtain ⟨rfl, rfl, hrep⟩ := hr
    exact ⟨by rw [hrep.toBucket_eq], hrep.self⟩

theorem take_rep (h : Rep q none q.toBucket none) (ht : takeToken q = some q') :
    takeToken q.toBucket = some q'.toBucket ∧ Rep q' none q'.toBucket none := by
  have hagree := takeToken_agree h
  rw [ht] at hagree
  generalize takeToken q.toBucket = R at hagree
  cases hagree with
  | some hrep => exact ⟨by rw [hrep.toBucket_eq], hrep.self⟩

theorem get_rep (h : Rep q none q.toBucket none) : ∃ q',
    bqueueGet q = some ((Bucket.bqueueGet q.toBucket).1, q') ∧
      q'.toBucket = (Bucket.bqueueGet q.toBucket).2 ∧ Rep q' none q'.toBucket none := by
  have hagree := bqueueGet_agree h
  generalize hr : bqueueGet q = r at hagree
  cases hagree with
  | @some r _ hr =>
    obtain ⟨m, q'⟩ := r
    exact ⟨q', by rw [← hr.1], hr.2.toBucket_eq, hr.2.self⟩

end Contract

instance : LawfulPsQueue Queue where
  Inv k q := Rep q none q.toBucket none ∧ LawfulPsQueue.Inv k q.toBucket
  items q := LawfulPsQueue.items q.toBucket
  capacity q := LawfulPsQueue.capacity q.toBucket
  inv_new n := by
    refine ⟨(rep_new n).self, ?_⟩
    rw [(rep_new n).toBucket_eq]
    exact LawfulPsQueue.inv_new n
  items_new n := by
    rw [(rep_new n).toBucket_eq]
    exact LawfulPsQueue.items_new n
  capacity_new n := by
    rw [(rep_new n).toBucket_eq]
    exact LawfulPsQueue.capacity_new n
  tokens_add h := LawfulPsQueue.tokens_add h.2
  length_le h := LawfulPsQueue.length_le h.2
  push_some {α k q} m {p} h hp := by
    have hsome := LawfulPsQueue.push_some m h.2 hp
    have hagree := psQueuePush_agree h.1 m p
    show (psQueuePush q m p).isSome
    change (Bucket.psQueuePush q.toBucket m p).isSome at hsome
    generalize psQueuePush q m p = r at hagree
    generalize Bucket.psQueuePush q.toBucket m p = R at hagree hsome
    cases hagree with
    | none => exact hsome
    | some => rfl
  push_inv h hp := by
    obtain ⟨hpush, hrep⟩ := push_rep h.1 hp
    obtain ⟨hinv, hcap, hpushed⟩ := LawfulPsQueue.push_inv h.2 hpush
    exact ⟨⟨hrep, hinv⟩, hcap, hpushed⟩
  take_inv h ht := by
    obtain ⟨htake, hrep⟩ := take_rep h.1 ht
    obtain ⟨hinv, hrest⟩ := LawfulPsQueue.take_inv h.2 htake
    exact ⟨⟨hrep, hinv⟩, hrest⟩
  set_notEmpty _ := rfl
  pull_inv h := by
    obtain ⟨m, Q', hpull, hinv, hcap, hitems⟩ := LawfulPsQueue.pull_inv h.2
    obtain ⟨q', hget, hQ', hrep⟩ := get_rep h.1
    have hpair : Bucket.bqueueGet _ = (some m, Q') := Option.some.inj hpull
    rw [hpair] at hget hQ'
    refine ⟨m, q', hget, ⟨hrep, ?_⟩, ?_, ?_⟩
    · rw [hQ']
      exact hinv
    · rw [hQ']
      exact hcap
    · rw [hQ']
      exact hitems
  waiting_eq h := LawfulPsQueue.waiting_eq h.2
  free_empty {α k q} h he := by
    obtain ⟨nodes, hfree, -⟩ := psFreeQueue_rep h.1
    have hnil := LawfulPsQueue.free_empty h.2 he
    show (psFreeQueue q).map Prod.fst = some []
    rw [hfree]
    exact hnil

end PubSub.Nodes
