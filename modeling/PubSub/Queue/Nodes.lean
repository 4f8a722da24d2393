import PubSub.Queue.Bucket
import PubSub.Utlist

/-! The bucket queue of `psqueue_b.c` in its nodes: the ten lists and the free list are
pointers into one heap. Every function does on the nodes what the function of the same
name in `Bucket` does on lists; `none` is a pointer that is NULL or was freed, or an index
past the end of `priorities`. -/

namespace PubSub.Bucket

variable {α : Type}

/-- A list of the queue: the free list, or the list of a priority. -/
def Queue.list (Q : Queue α) : Option (Fin PRIORITIES) → List (Node α)
  | none => Q.available
  | some i => Q.priorities i

def Queue.setList (Q : Queue α) (l : List (Node α)) : Option (Fin PRIORITIES) → Queue α
  | none => { Q with available := l }
  | some i => Q.setPriorities i l

end PubSub.Bucket

namespace PubSub.Nodes

open Lib
open Bucket (PRIORITIES)

/-- `node_t`. -/
structure Node (α : Type) where
  prev : Option ℕ
  next : Option ℕ
  msg : Option α

def hook (α : Type) : Hook (Node α) (Option α) where
  prev := Node.prev
  next := Node.next
  body := Node.msg
  setPrev p n := { n with prev := p }
  setNext p n := { n with next := p }
  prev_setPrev _ _ := rfl
  next_setPrev _ _ := rfl
  body_setPrev _ _ := rfl
  prev_setNext _ _ := rfl
  next_setNext _ _ := rfl
  body_setNext _ _ := rfl

/-- `struct ps_queue_s`, and the heap that its nodes are in. -/
structure Queue (α : Type) where
  nodes : Cells (Node α)
  priorities : Fin PRIORITIES → Option ℕ
  available : Option ℕ
  notEmpty : Semaphore

variable {α : Type}

def Queue.setPriorities (q : Queue α) (i : Fin PRIORITIES) (head : Option ℕ) : Queue α :=
  { q with priorities := Function.update q.priorities i head }

/-- `n->msg = msg`. -/
def setMsg (nodes : Cells (Node α)) (n : ℕ) (msg : Option α) : Option (Cells (Node α)) :=
  nodes.write n fun a => { a with msg := msg }

/-- The loop of `psNewQueue`, with `sz` nodes still to be appended. -/
def appendNodes : ℕ → Queue α → Option (Queue α)
  | 0, q => some q
  | sz + 1, q => do
    let n := q.nodes.next
    let nodes := q.nodes.alloc ⟨none, none, none⟩
    let (nodes, available) ← dlAppend (hook α) nodes q.available n
    appendNodes sz { q with nodes := nodes, available := available }

def psNewQueue (sz : ℕ) : Option (Queue α) :=
  appendNodes sz ⟨.empty, fun _ => none, none, semaphoreInit 0⟩

/-- The loop of `bqueueGetAvailable` from index `i`, with `left` indices below
`max_prio` to go. -/
def dropLowest (q : Queue α) (i : ℕ) : ℕ → Option (QueueRet × Option ℕ × Option α × Queue α)
  | 0 => some (.efull, none, none, q)
  | left + 1 =>
    if h : i < PRIORITIES then
      match q.priorities ⟨i, h⟩ with
      | some head => do
        let n ← (← (hook α).prevAt q.nodes head)
        let msg ← (hook α).bodyAt q.nodes n
        let nodes ← setMsg q.nodes n none
        let (nodes, head) ← dlDelete (hook α) nodes (some head) n
        some (.eoverflow, some n, msg, { q.setPriorities ⟨i, h⟩ head with nodes := nodes })
      | none => dropLowest q (i + 1) left
    else none

/-- The result code, the node, the message passed to `ps_unref_msg`, the queue. -/
def bqueueGetAvailable (q : Queue α) (maxPrio : UInt8) :
    Option (QueueRet × Option ℕ × Option α × Queue α) :=
  match q.available with
  | some n => do
    let (nodes, available) ← dlDelete (hook α) q.nodes q.available n
    some (.ok, some n, none, { q with nodes := nodes, available := available })
  | none => dropLowest q 0 maxPrio.toNat

/-- The loop of `bqueueGet`, with the indices below `i` to go, downwards. -/
def bqueueGetBelow (q : Queue α) : (i : ℕ) → i ≤ PRIORITIES → Option (Option α × Queue α)
  | 0, _ => some (none, q)
  | i + 1, h =>
    match q.priorities ⟨i, h⟩ with
    | some n => do
      let msg ← (hook α).bodyAt q.nodes n
      let (nodes, head) ← dlDelete (hook α) q.nodes (some n) n
      let q := q.setPriorities ⟨i, h⟩ head
      let nodes ← setMsg nodes n none
      let (nodes, available) ← dlAppend (hook α) nodes q.available n
      some (msg, { q with nodes := nodes, available := available })
    | none => bqueueGetBelow q i (Nat.le_of_lt h)

def bqueueGet (q : Queue α) : Option (Option α × Queue α) :=
  bqueueGetBelow q PRIORITIES (Nat.le_refl _)

def bqueueInsert (q : Queue α) (n : ℕ) (priority : UInt8) : Option (Queue α) :=
  if h : priority.toNat < PRIORITIES then do
    let (nodes, head) ← dlAppend (hook α) q.nodes (q.priorities ⟨priority.toNat, h⟩) n
    some { q.setPriorities ⟨priority.toNat, h⟩ head with nodes := nodes }
  else none

def psQueuePush (q : Queue α) (msg : α) (priority : UInt8) :
    Option (QueueRet × Option α × Queue α) := do
  let (ret, n, dropped, q) ← bqueueGetAvailable q priority
  match n with
  | none => some (ret, dropped, q)
  | some n => do
    let nodes ← setMsg q.nodes n (some msg)
    let q ← bqueueInsert { q with nodes := nodes } n priority
    let q := if ret = .ok then { q with notEmpty := semaphorePost q.notEmpty } else q
    some (ret, dropped, q)

def psQueueWaiting (q : Queue α) : ℕ := semaphoreGet q.notEmpty

/-- A round of the first loops of `psFreeQueue`, with the messages passed to
`ps_unref_msg` so far. -/
def freeNode (i : Fin PRIORITIES) (n : ℕ) (s : List α × Queue α) : Option (List α × Queue α) := do
  let msg ← (hook α).bodyAt s.2.nodes n
  let (nodes, head) ← dlDelete (hook α) s.2.nodes (s.2.priorities i) n
  let nodes ← nodes.release n
  some (s.1 ++ msg.toList, { s.2.setPriorities i head with nodes := nodes })

/-- A round of the last loop. -/
def freeAvailable (n : ℕ) (q : Queue α) : Option (Queue α) := do
  let (nodes, head) ← dlDelete (hook α) q.nodes q.available n
  let nodes ← nodes.release n
  some { q with nodes := nodes, available := head }

/-- The messages passed to `ps_unref_msg`, and the heap that is left. -/
def psFreeQueue (q : Queue α) : Option (List α × Cells (Node α)) := do
  let (msgs, q) ← (List.finRange PRIORITIES).foldlM (fun s i =>
    dlForeachSafe (hook α) (fun s => s.2.nodes) (freeNode i) s.2.nodes.next (s.2.priorities i) s)
    ([], q)
  let q ← dlForeachSafe (hook α) Queue.nodes freeAvailable q.nodes.next q.available q
  some (msgs, q.nodes)

/-! ### The lists in the nodes -/

/-- The pointer to a list: to the free list, or to the list of a priority. -/
def Queue.head (q : Queue α) : Option (Fin PRIORITIES) → Option ℕ
  | none => q.available
  | some i => q.priorities i

/-- The queue with another heap and another pointer to one list. -/
def Queue.put (q : Queue α) (nodes : Cells (Node α)) (head : Option ℕ) :
    Option (Fin PRIORITIES) → Queue α
  | none => { q with nodes := nodes, available := head }
  | some i => { q.setPriorities i head with nodes := nodes }

@[simp] theorem nodes_put (q : Queue α) (nodes : Cells (Node α)) (head : Option ℕ)
    (x : Option (Fin PRIORITIES)) : (q.put nodes head x).nodes = nodes := by
  cases x <;> rfl

@[simp] theorem notEmpty_put (q : Queue α) (nodes : Cells (Node α)) (head : Option ℕ)
    (x : Option (Fin PRIORITIES)) : (q.put nodes head x).notEmpty = q.notEmpty := by
  cases x <;> rfl

theorem head_put (q : Queue α) (nodes : Cells (Node α)) (head : Option ℕ)
    (x : Option (Fin PRIORITIES)) : (q.put nodes head x).head = Function.update q.head x head := by
  funext y
  cases x with
  | none =>
    cases y with
    | none => rw [Function.update_self]; rfl
    | some j => rw [Function.update_of_ne (by simp)]; rfl
  | some i =>
    cases y with
    | none => rw [Function.update_of_ne (by simp)]; rfl
    | some j =>
      by_cases hj : j = i
      · subst hj
        rw [Function.update_self]
        exact Function.update_self _ _ _
      · rw [Function.update_of_ne (by simpa using hj)]
        exact Function.update_of_ne hj _ _

/-- The list of `Bucket` that a list of nodes is. -/
def nodesOf (nodes : Cells (Node α)) (l : List ℕ) : List (Bucket.Node α) :=
  l.map fun n => ⟨((hook α).bodyAt nodes n).join⟩

theorem nodesOf_congr {c c' : Cells (Node α)} {l : List ℕ}
    (h : ∀ n ∈ l, (hook α).bodyAt c' n = (hook α).bodyAt c n) : nodesOf c' l = nodesOf c l :=
  List.map_congr_left fun n hn => by rw [h n hn]

/-- The queue of `Bucket` with the nodes in these lists. -/
def Queue.toLists (q : Queue α) (lists : Option (Fin PRIORITIES) → List ℕ) : Bucket.Queue α where
  priorities i := nodesOf q.nodes (lists (some i))
  available := nodesOf q.nodes (lists none)
  notEmpty := q.notEmpty

theorem toLists_list (q : Queue α) (lists : Option (Fin PRIORITIES) → List ℕ)
    (x : Option (Fin PRIORITIES)) : (q.toLists lists).list x = nodesOf q.nodes (lists x) := by
  cases x <;> rfl

/-- A change to one list. -/
theorem toLists_eq {q q' : Queue α} {lists : Option (Fin PRIORITIES) → List ℕ}
    {x : Option (Fin PRIORITIES)} {k : List ℕ} {K : List (Bucket.Node α)}
    (hsem : q'.notEmpty = q.notEmpty) (hk : nodesOf q'.nodes k = K)
    (hother : ∀ y, y ≠ x → nodesOf q'.nodes (lists y) = nodesOf q.nodes (lists y)) :
    q'.toLists (Function.update lists x k) = (q.toLists lists).setList K x := by
  subst hk
  cases x with
  | none =>
    simp only [Queue.toLists, Bucket.Queue.setList, Function.update_self, hsem,
      Bucket.Queue.mk.injEq, and_true]
    exact funext fun j => by rw [Function.update_of_ne (by simp), hother (some j) (by simp)]
  | some i =>
    simp only [Queue.toLists, Bucket.Queue.setList, Bucket.Queue.setPriorities, hsem,
      Bucket.Queue.mk.injEq, and_true]
    refine ⟨funext fun j => ?_, ?_⟩
    · split
      case isTrue hj => rw [hj, Function.update_self]
      case isFalse hj =>
        have hne : (some j : Option (Fin PRIORITIES)) ≠ some i := by simpa using hj
        rw [Function.update_of_ne hne, hother _ hne]
    · rw [Function.update_of_ne (by simp), hother none (by simp)]

/-- The nodes of `q` are the lists of `Q`, and the node `n` that is on its way is `N`. -/
def Rep (q : Queue α) (n : Option ℕ) (Q : Bucket.Queue α) (N : Option (Bucket.Node α)) : Prop :=
  ∃ lists, DLists (hook α) q.nodes q.head lists n ∧ q.toLists lists = Q ∧
    n.map (fun n => (⟨((hook α).bodyAt q.nodes n).join⟩ : Bucket.Node α)) = N

namespace Rep
variable {q : Queue α} {n : ℕ} {Q : Bucket.Queue α} {N : Bucket.Node α}
  {x : Option (Fin PRIORITIES)} {A B : List (Bucket.Node α)}

theorem head_eq_none (h : Rep q none Q none) : q.head x = none ↔ Q.list x = [] := by
  obtain ⟨lists, hl, rfl, -⟩ := h
  rw [toLists_list, (hl.list x).head_eq, List.head?_eq_none_iff, nodesOf, List.map_eq_nil_iff]

theorem append (h : Rep q (some n) Q (some N)) (x : Option (Fin PRIORITIES)) :
    ∃ c head, dlAppend (hook α) q.nodes (q.head x) n = some (c, head) ∧
      Rep (q.put c head x) none (Q.setList (Q.list x ++ [N]) x) none := by
  obtain ⟨lists, hl, rfl, hn⟩ := h
  obtain ⟨c, happ, hl', hbody, -⟩ := hl.append x
  refine ⟨c, _, happ, Function.update lists x (lists x ++ [n]), ?_, ?_, rfl⟩
  · rw [nodes_put, head_put]
    exact hl'
  · apply toLists_eq (notEmpty_put _ _ _ _)
    · rw [nodes_put, toLists_list, ← Option.some.inj hn,
        nodesOf_congr (c := q.nodes) fun m _ => by rw [hbody], nodesOf, List.map_append]
      rfl
    · exact fun y _ => by rw [nodes_put]; exact nodesOf_congr fun m _ => by rw [hbody]

theorem delete_first (h : Rep q none Q none) (hx : Q.list x = N :: B) :
    ∃ n c head, q.head x = some n ∧ (hook α).bodyAt q.nodes n = some N.msg ∧
      dlDelete (hook α) q.nodes (some n) n = some (c, head) ∧
      Rep (q.put c head x) (some n) (Q.setList B x) (some N) := by
  obtain ⟨lists, hl, rfl, -⟩ := h
  rw [toLists_list, nodesOf] at hx
  obtain ⟨n, b, hlist, rfl, rfl⟩ := List.map_eq_cons_iff.mp hx
  have hhead : q.head x = some n := by rw [(hl.list x).head_eq, hlist]; rfl
  obtain ⟨c, hdel, hl', hbody, -⟩ := hl.delete (a := []) hlist
  have hlive : ((hook α).bodyAt q.nodes n).isSome := by
    rw [Hook.isSome_bodyAt]
    exact hl.live (by rw [hlist]; exact List.mem_cons_self)
  obtain ⟨m, hm⟩ := Option.isSome_iff_exists.mp hlive
  rw [hhead] at hdel
  refine ⟨n, c, _, hhead, by rw [hm]; rfl, hdel, Function.update lists x b, ?_, ?_, ?_⟩
  · rw [nodes_put, head_put]
    exact hl'
  · apply toLists_eq (notEmpty_put _ _ _ _)
    · rw [nodes_put]
      exact nodesOf_congr fun m _ => by rw [hbody]
    · exact fun y _ => by rw [nodes_put]; exact nodesOf_congr fun m _ => by rw [hbody]
  · rw [nodes_put, hbody]
    rfl

/-- A write to the message of the node on its way. -/
theorem setMsg (h : Rep q (some n) Q (some N)) (msg : Option α) :
    ∃ c, Nodes.setMsg q.nodes n msg = some c ∧ Rep { q with nodes := c } (some n) Q (some ⟨msg⟩) := by
  obtain ⟨lists, hl, rfl, -⟩ := h
  have hlive : (q.nodes.get n).isSome := (hl.cover n).mpr (.inl rfl)
  obtain ⟨c, hc, hl', -, hn, hframe⟩ := hl.write_body (f := fun a => { a with msg := msg }) hlive
    (fun _ => rfl) fun _ => rfl
  obtain ⟨a, ha⟩ := Option.isSome_iff_exists.mp hlive
  have hbody : (hook α).bodyAt c n = some msg := by
    rw [Hook.bodyAt, hn, ha]
    rfl
  have hother : ∀ x, nodesOf c (lists x) = nodesOf q.nodes (lists x) := fun x =>
    nodesOf_congr fun m hm => by
      rw [Hook.bodyAt, hframe m (ne_of_mem_of_not_mem hm (hl.out n rfl x)), Hook.bodyAt]
  refine ⟨c, hc, lists, hl', ?_, by rw [Option.map_some, hbody]; rfl⟩
  simp only [Queue.toLists, hother]

/-- The last node of a list loses its message and is taken out. -/
theorem drop_last (h : Rep q none Q none) (hx : Q.list x = A ++ [N]) :
    ∃ h₀ n c₁ c head, q.head x = some h₀ ∧ (hook α).prevAt q.nodes h₀ = some (some n) ∧
      (hook α).bodyAt q.nodes n = some N.msg ∧ Nodes.setMsg q.nodes n none = some c₁ ∧
      dlDelete (hook α) c₁ (some h₀) n = some (c, head) ∧
      Rep (q.put c head x) (some n) (Q.setList A x) (some ⟨none⟩) := by
  obtain ⟨lists, hl, rfl, -⟩ := h
  rw [toLists_list, nodesOf] at hx
  obtain ⟨a, l, hlist, rfl, hl₁⟩ := List.map_eq_append_iff.mp hx
  obtain ⟨n, rfl, rfl⟩ := List.map_eq_singleton_iff.mp hl₁
  obtain ⟨h₀, r, hcons⟩ : ∃ h₀ r, a ++ [n] = h₀ :: r := List.exists_cons_of_ne_nil (by simp)
  have hhead : q.head x = some h₀ := by rw [(hl.list x).head_eq, hlist, hcons]; rfl
  have hprev : (hook α).prevAt q.nodes h₀ = some (some n) := by
    have hlinked := (hl.list x).linked
    rw [hlist, List.getLast?_concat, hcons] at hlinked
    exact hlinked.1
  have hlive : (q.nodes.get n).isSome := hl.live (x := x) (by rw [hlist]; simp)
  obtain ⟨c₁, hc₁, hl₁, -, hn, hframe⟩ := hl.write_body (f := fun m => { m with msg := none })
    hlive (fun _ => rfl) fun _ => rfl
  obtain ⟨m, hm⟩ := Option.isSome_iff_exists.mp hlive
  have hbody₁ : (hook α).bodyAt c₁ n = some none := by
    rw [Hook.bodyAt, hn, hm]
    rfl
  obtain ⟨c, hdel, hl', hbody, -⟩ := hl₁.delete (b := []) hlist
  have hhead' : ({ q with nodes := c₁ } : Queue α).head = q.head := rfl
  rw [hhead, List.append_nil] at hdel
  rw [List.append_nil] at hl'
  have hnot : n ∉ a := by
    have hd := (hl.list x).nodup
    rw [hlist, List.nodup_append] at hd
    exact fun hmem => hd.2.2 n hmem n (by simp) rfl
  refine ⟨h₀, n, c₁, c, _, hhead, hprev, by rw [Hook.bodyAt, hm]; rfl, hc₁, hdel,
    Function.update lists x a, ?_, ?_, ?_⟩
  · rw [nodes_put, head_put]
    exact hl'
  · apply toLists_eq (notEmpty_put _ _ _ _)
    · rw [nodes_put]
      exact nodesOf_congr fun j hj => by
        rw [hbody, Hook.bodyAt, hframe j (ne_of_mem_of_not_mem hj hnot), Hook.bodyAt]
    · intro y hy
      rw [nodes_put]
      refine nodesOf_congr fun j hj => ?_
      have hne : j ≠ n := by
        rintro rfl
        exact hy (hl.apart y x j hj (by rw [hlist]; simp))
      rw [hbody, Hook.bodyAt, hframe j hne, Hook.bodyAt]
  · rw [nodes_put, Option.map_some, hbody, hbody₁]
    rfl

end Rep

/-! ### The functions -/

/-- The results of two functions agree, and so do the queues. -/
def Agree {β : Type} (x : Option (β × Queue α)) (X : Option (β × Bucket.Queue α)) : Prop :=
  Option.Rel (fun r R => r.1 = R.1 ∧ Rep r.2 none R.2 none) x X

/-- The results of `bqueueGetAvailable` agree, and so do the node that it takes and the
queue that is left. -/
def AgreeNode (x : Option (QueueRet × Option ℕ × Option α × Queue α))
    (X : Option (QueueRet × Option (Bucket.Node α) × Option α × Bucket.Queue α)) : Prop :=
  Option.Rel (fun r R => r.1 = R.1 ∧ r.2.2.1 = R.2.2.1 ∧ Rep r.2.2.2 r.2.1 R.2.2.2 R.2.1) x X

section Functions
variable {q : Queue α} {Q : Bucket.Queue α}

theorem dropLowest_agree (h : Rep q none Q none) (i left : ℕ) :
    AgreeNode (dropLowest q i left) (Bucket.dropLowest Q i left) := by
  induction left generalizing i with
  | zero => exact .some ⟨rfl, rfl, h⟩
  | succ left ih =>
    rw [dropLowest, Bucket.dropLowest]
    split
    case isFalse => exact .none
    case isTrue hi =>
      have hiff := h.head_eq_none (x := some ⟨i, hi⟩)
      cases hlast : (Q.priorities ⟨i, hi⟩).getLast? with
      | none =>
        have hnil : Q.list (some ⟨i, hi⟩) = [] := List.getLast?_eq_none_iff.mp hlast
        have hnone : q.priorities ⟨i, hi⟩ = none := hiff.mpr hnil
        rw [hnone]
        exact ih (i + 1)
      | some N =>
        have hsplit : Q.list (some ⟨i, hi⟩) = (Q.priorities ⟨i, hi⟩).dropLast ++ [N] :=
          (List.dropLast_append_getLast? N hlast).symm
        obtain ⟨h₀, n, c₁, c, head, hhead, hprev, hbody, hc₁, hdel, hrep⟩ := h.drop_last hsplit
        have hhead : q.priorities ⟨i, hi⟩ = some h₀ := hhead
        simp only [hhead, hprev, hbody, hc₁, hdel, Option.bind_eq_bind, Option.bind_some]
        exact .some ⟨rfl, rfl, hrep⟩

theorem bqueueGetAvailable_agree (h : Rep q none Q none) (p : UInt8) :
    AgreeNode (bqueueGetAvailable q p) (Bucket.bqueueGetAvailable Q p) := by
  have hiff := h.head_eq_none (x := none)
  rw [bqueueGetAvailable, Bucket.bqueueGetAvailable]
  cases havail : Q.available with
  | nil =>
    have hnone : q.available = none := hiff.mpr havail
    rw [hnone]
    exact dropLowest_agree h 0 p.toNat
  | cons N rest =>
    obtain ⟨n, c, head, hhead, -, hdel, hrep⟩ := h.delete_first (x := none) havail
    have hhead : q.available = some n := hhead
    simp only [hhead, hdel, Option.bind_eq_bind, Option.bind_some]
    exact .some ⟨rfl, rfl, hrep⟩

theorem bqueueInsert_agree {n : ℕ} {N : Bucket.Node α} (h : Rep q (some n) Q (some N)) (p : UInt8) :
    Option.Rel (fun q Q => Rep q none Q none) (bqueueInsert q n p) (Bucket.bqueueInsert Q N p) := by
  rw [bqueueInsert, Bucket.bqueueInsert]
  split
  case isFalse => exact .none
  case isTrue hp =>
    obtain ⟨c, head, happ, hrep⟩ := h.append (some ⟨p.toNat, hp⟩)
    have happ : dlAppend (hook α) q.nodes (q.priorities ⟨p.toNat, hp⟩) n = some (c, head) := happ
    simp only [happ, Option.bind_eq_bind, Option.bind_some]
    exact .some hrep

theorem bqueueGetBelow_agree (h : Rep q none Q none) (i : ℕ) (hi : i ≤ PRIORITIES) :
    Agree (bqueueGetBelow q i hi) (some (Bucket.bqueueGetBelow Q i hi)) := by
  induction i with
  | zero => exact .some ⟨rfl, h⟩
  | succ i ih =>
    have hiff := h.head_eq_none (x := some ⟨i, hi⟩)
    rw [bqueueGetBelow, Bucket.bqueueGetBelow]
    cases hrow : Q.priorities ⟨i, hi⟩ with
    | nil =>
      have hnone : q.priorities ⟨i, hi⟩ = none := hiff.mpr hrow
      rw [hnone]
      exact ih _
    | cons N rest =>
      obtain ⟨n, c, head, hhead, hbody, hdel, hrep⟩ := h.delete_first (x := some ⟨i, hi⟩) hrow
      obtain ⟨c₁, hc₁, hrep₁⟩ := hrep.setMsg none
      obtain ⟨c₂, head₂, happ, hrep₂⟩ := hrep₁.append none
      have hhead : q.priorities ⟨i, hi⟩ = some n := hhead
      have hc₁ : setMsg c n none = some c₁ := hc₁
      have happ : dlAppend (hook α) c₁ q.available n = some (c₂, head₂) := happ
      simp only [hhead, hbody, hdel, Option.bind_eq_bind, Option.bind_some, hc₁]
      show Agree ((dlAppend (hook α) c₁ q.available n).bind _) _
      rw [happ]
      exact .some ⟨rfl, hrep₂⟩

theorem bqueueGet_agree (h : Rep q none Q none) :
    Agree (bqueueGet q) (some (Bucket.bqueueGet Q)) := bqueueGetBelow_agree h _ _

/-- The semaphore is no node. -/
theorem Rep.setNotEmpty (h : Rep q none Q none) (sem : Semaphore) :
    Rep { q with notEmpty := sem } none { Q with notEmpty := sem } none := by
  obtain ⟨lists, hl, rfl, -⟩ := h
  exact ⟨lists, hl, rfl, rfl⟩

theorem Rep.notEmpty_eq (h : Rep q none Q none) : q.notEmpty = Q.notEmpty := by
  obtain ⟨lists, -, rfl, -⟩ := h
  rfl

theorem psQueuePush_agree (h : Rep q none Q none) (msg : α) (p : UInt8) :
    Option.Rel (fun r R => r.1 = R.1 ∧ r.2.1 = R.2.1 ∧ Rep r.2.2 none R.2.2 none)
      (psQueuePush q msg p) (Bucket.psQueuePush Q msg p) := by
  have hnode := bqueueGetAvailable_agree h p
  rw [psQueuePush, Bucket.psQueuePush]
  generalize bqueueGetAvailable q p = r at hnode
  generalize Bucket.bqueueGetAvailable Q p = R at hnode
  cases hnode with
  | none => exact .none
  | @some r R hr =>
    obtain ⟨ret, n, d, q₁⟩ := r
    obtain ⟨Ret, N, D, Q₁⟩ := R
    obtain ⟨rfl, rfl, hrep⟩ := hr
    have hmap : n.isSome = N.isSome := by
      obtain ⟨lists, -, -, rfl⟩ := hrep
      rw [Option.isSome_map]
    simp only [Option.bind_eq_bind, Option.bind_some]
    cases n with
    | none =>
      obtain rfl : N = none := by simpa using hmap.symm
      exact .some ⟨rfl, rfl, hrep⟩
    | some n =>
      obtain ⟨N, rfl⟩ : ∃ N', N = some N' := Option.isSome_iff_exists.mp (by rw [← hmap]; rfl)
      obtain ⟨c, hc, hrep⟩ := hrep.setMsg (some msg)
      simp only [hc, Option.bind_some]
      have hinsert := bqueueInsert_agree hrep p
      generalize bqueueInsert { q₁ with nodes := c } n p = r at hinsert
      generalize Bucket.bqueueInsert Q₁ ⟨some msg⟩ p = R at hinsert
      cases hinsert with
      | none => exact .none
      | @some q₂ Q₂ hrep₂ =>
        refine .some ⟨rfl, rfl, ?_⟩
        split
        · rw [hrep₂.notEmpty_eq]
          exact hrep₂.setNotEmpty _
        · exact hrep₂

end Functions

end PubSub.Nodes
