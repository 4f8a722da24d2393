import PubSub.Lib.Linked

/-! The doubly linked lists of `utlist.h`. The list is known by the pointer to its first
node, whose `prev` is the last node; the `next` of the last node is NULL. A macro that
assigns to its `head` gives the new value back. -/

namespace PubSub

open Lib

variable {ν β : Type} (L : Hook ν β)

/-- `DL_APPEND`. -/
def dlAppend (c : Cells ν) (head : Option ℕ) (add : ℕ) : Option (Cells ν × Option ℕ) :=
  match head with
  | some h => do
    let prev ← L.prevAt c h
    let c ← c.write add (L.setPrev prev)
    let last ← (← L.prevAt c h)
    let c ← c.write last (L.setNext (some add))
    let c ← c.write h (L.setPrev (some add))
    let c ← c.write add (L.setNext none)
    some (c, some h)
  | none => do
    let c ← c.write add (L.setPrev (some add))
    let c ← c.write add (L.setNext none)
    some (c, some add)

/-- `DL_DELETE`. -/
def dlDelete (c : Cells ν) (head : Option ℕ) (del : ℕ) : Option (Cells ν × Option ℕ) := do
  let h ← head
  let prev ← (← L.prevAt c del)
  if prev = del then some (c, none)
  else if del = h then do
    let next ← (← L.nextAt c del)
    let c ← c.write next (L.setPrev (some prev))
    some (c, ← L.nextAt c del)
  else do
    let next ← L.nextAt c del
    let c ← c.write prev (L.setNext next)
    let next ← L.nextAt c del
    let prev ← L.prevAt c del
    match next with
    | some next => do
      let c ← c.write next (L.setPrev prev)
      some (c, some h)
    | none => do
      let c ← c.write h (L.setPrev prev)
      some (c, some h)

/-- `DL_FOREACH_SAFE`, which reads the next node before the body runs, with a bound on
its rounds. -/
def dlForeachSafe {σ : Type} (heap : σ → Cells ν) (body : ℕ → σ → Option σ) :
    ℕ → Option ℕ → σ → Option σ
  | _, none, s => some s
  | 0, some _, _ => none
  | fuel + 1, some el, s => do
    let tmp ← L.nextAt (heap s) el
    let s ← body el s
    dlForeachSafe heap body fuel tmp s

/-- The nodes of a list in the order of a `DL_FOREACH`, with a bound on its rounds. -/
def dlNodes (c : Cells ν) : ℕ → Option ℕ → List ℕ
  | _, none => []
  | 0, some _ => []
  | fuel + 1, some el => el :: dlNodes c fuel (L.nextAt c el).join

variable {L} {c c' : Cells ν} {head : Option ℕ} {l k : List ℕ} {add del : ℕ}

/-- The nodes `l` are the list of `head`. -/
structure DList (L : Hook ν β) (c : Cells ν) (head : Option ℕ) (l : List ℕ) : Prop where
  head_eq : head = l.head?
  nodup : l.Nodup
  linked : Linked (L.prevAt c) (L.nextAt c) l.getLast? l none

namespace DList

theorem nil (c : Cells ν) : DList L c none [] := ⟨rfl, List.nodup_nil, trivial⟩

theorem live (h : DList L c head l) {i : ℕ} (hi : i ∈ l) : (c.get i).isSome := by
  have hprev := (h.linked.live hi).1
  rwa [Hook.prevAt, Option.isSome_map] at hprev

/-- What happens to other nodes does not matter. -/
theorem congr (h : DList L c head l) (hl : ∀ i ∈ l, c'.get i = c.get i) : DList L c' head l :=
  ⟨h.head_eq, h.nodup, h.linked.congr (fun i hi => by rw [Hook.prevAt, hl i hi, Hook.prevAt])
    fun i hi => by rw [Hook.nextAt, hl i hi, Hook.nextAt]⟩

/-- `DL_APPEND` puts the node at the end. -/
theorem append (h : DList L c head l) (hadd : add ∉ l) (hlive : (c.get add).isSome) :
    ∃ c', dlAppend L c head add = some (c', (l ++ [add]).head?) ∧
      DList L c' (l ++ [add]).head? (l ++ [add]) ∧ L.Relinks c c' (l ++ [add]) := by
  have hnodup : (l ++ [add]).Nodup := by
    rw [List.nodup_append]
    exact ⟨h.nodup, List.nodup_singleton add, by simpa using fun i hi => ne_of_mem_of_not_mem hi hadd⟩
  have hin : add ∈ l ++ [add] := by simp
  cases hl : l with
  | nil =>
    subst hl
    obtain rfl : head = none := h.head_eq
    obtain ⟨c₁, h₁, hP₁, hN₁, hr₁⟩ := L.write_setPrev hlive (some add) hin
    obtain ⟨c₂, h₂, hP₂, hN₂, hr₂⟩ := L.write_setNext (by rw [hr₁.live]; exact hlive) none hin
    refine ⟨c₂, by simp [dlAppend, h₁, h₂], ⟨rfl, hnodup, ?_⟩, hr₁.trans hr₂⟩
    rw [hP₂, hN₂, hP₁]
    exact ⟨Function.update_self _ _ _, Function.update_self _ _ _, trivial⟩
  | cons h₀ r =>
    subst hl
    obtain rfl : head = some h₀ := h.head_eq
    obtain ⟨a, t, ht⟩ : ∃ a t, h₀ :: r = a ++ [t] :=
      ⟨_, _, (List.dropLast_append_getLast (List.cons_ne_nil h₀ r)).symm⟩
    have hlast : (h₀ :: r).getLast? = some t := by rw [ht, List.getLast?_concat]
    have hfirst : h₀ ∈ (h₀ :: r) ++ [add] := by simp
    have htin : t ∈ (h₀ :: r) ++ [add] := by rw [ht]; simp
    have hne : h₀ ≠ add := fun heq => hadd (heq ▸ List.mem_cons_self)
    have hprev : L.prevAt c h₀ = some (some t) := by
      have hp := h.linked.1
      rwa [hlast] at hp
    have hlive' : ∀ i ∈ h₀ :: r, (c.get i).isSome := fun i => h.live
    obtain ⟨c₁, h₁, hP₁, hN₁, hr₁⟩ := L.write_setPrev hlive (some t) hin
    have hprev₁ : L.prevAt c₁ h₀ = some (some t) := by
      rw [hP₁, Function.update_of_ne hne, hprev]
    obtain ⟨c₂, h₂, hP₂, hN₂, hr₂⟩ := L.write_setNext (i := t) (c := c₁)
      (by rw [hr₁.live]; exact hlive' t (by rw [ht]; simp)) (some add) htin
    have hr₂ := hr₁.trans hr₂
    obtain ⟨c₃, h₃, hP₃, hN₃, hr₃⟩ := L.write_setPrev (i := h₀) (c := c₂)
      (by rw [hr₂.live]; exact hlive' h₀ List.mem_cons_self) (some add) hfirst
    have hr₃ := hr₂.trans hr₃
    obtain ⟨c₄, h₄, hP₄, hN₄, hr₄⟩ := L.write_setNext (i := add) (c := c₃)
      (by rw [hr₃.live]; exact hlive) none hin
    have hr₄ := hr₃.trans hr₄
    refine ⟨c₄, by simp [dlAppend, hprev, h₁, hprev₁, h₂, h₃, h₄], ⟨rfl, hnodup, ?_⟩, hr₄⟩
    rw [hP₄, hP₃, hP₂, hP₁, hN₄, hN₃, hN₂, hN₁, List.getLast?_concat, linked_append,
      linked_singleton, hlast]
    refine ⟨?_, ?_, Function.update_self _ _ _⟩
    · -- the old nodes, with the new one after the last and in the `prev` of the first
      have hnot : t ∉ a := by
        have hd := h.nodup
        rw [ht, List.nodup_append] at hd
        exact fun hmem => hd.2.2 t hmem t (by simp) rfl
      have hold := h.linked
      rw [hlast, ht] at hold
      have hold := hold.set_last (m := some add) hnot
      rw [← ht] at hold
      have hold := hold.update_prev hadd (some (some t))
      exact (hold.set_first (List.nodup_cons.mp h.nodup).1).update_next hadd _
    · rw [Function.update_of_ne hne.symm, Function.update_self, Option.some_or]

/-- `DL_DELETE` of the first node. -/
theorem delete_first {b : List ℕ} (h : DList L c head (del :: b)) :
    ∃ c', dlDelete L c head del = some (c', b.head?) ∧ DList L c' b.head? b ∧
      L.Relinks c c' b := by
  obtain rfl : head = some del := h.head_eq
  obtain ⟨hprev, hnext, hlinked⟩ := h.linked
  obtain ⟨hnot, hnodup⟩ := List.nodup_cons.mp h.nodup
  cases b with
  | nil =>
    have hself : L.prevAt c del = some (some del) := hprev
    exact ⟨c, by simp [dlDelete, hself], nil c, .refl c⟩
  | cons n r =>
    obtain ⟨t, ht⟩ : ∃ t, (n :: r).getLast? = some t :=
      ⟨_, List.getLast?_eq_some_getLast (List.cons_ne_nil n r)⟩
    have hlast : (del :: n :: r).getLast? = some t := by
      rw [List.getLast?_cons_cons, ht]
    have hne : t ≠ del := ne_of_mem_of_not_mem (List.mem_of_getLast? ht) hnot
    rw [hlast] at hprev
    have hn : n ∈ n :: r := List.mem_cons_self
    have hlive : (c.get n).isSome := h.live (List.mem_cons_of_mem del hn)
    obtain ⟨c', hc', hP, hN, hr⟩ := L.write_setPrev hlive (some t) hn
    have hnext' : L.nextAt c del = some (some n) := hnext
    have hnext'' : L.nextAt c' del = some (some n) := by rw [hN, hnext']
    refine ⟨c', by simp [dlDelete, hprev, hne, hnext', hc', hnext''], ⟨rfl, hnodup, ?_⟩, hr⟩
    rw [hP, hN, ht]
    exact hlinked.set_first (List.nodup_cons.mp hnodup).1

/-- `DL_DELETE` takes the node out. -/
theorem delete {a b : List ℕ} (h : DList L c head (a ++ del :: b)) :
    ∃ c', dlDelete L c head del = some (c', (a ++ b).head?) ∧
      DList L c' (a ++ b).head? (a ++ b) ∧ L.Relinks c c' (a ++ b) := by
  rcases List.eq_nil_or_concat' a with rfl | ⟨a, p, rfl⟩
  · exact delete_first h
  · obtain ⟨h₀, r, hhead⟩ : ∃ h₀ r, a ++ [p] = h₀ :: r := List.exists_cons_of_ne_nil (by simp)
    obtain rfl : head = some h₀ := by
      rw [h.head_eq, hhead]
      rfl
    have hd := List.nodup_append.mp h.nodup
    have hdel : ∀ i ∈ a ++ [p], i ≠ del := fun i hi => hd.2.2 i hi del List.mem_cons_self
    have hnot : ∀ i ∈ a ++ [p], i ∉ b := fun i hi hb =>
      hd.2.2 i hi i (List.mem_cons_of_mem del hb) rfl
    have hnodup : (a ++ [p] ++ b).Nodup := by
      rw [List.nodup_append]
      exact ⟨hd.1, (List.nodup_cons.mp hd.2.1).2, fun i hi j hj heq => hnot i hi (heq ▸ hj)⟩
    have hp : p ∈ a ++ [p] := by simp
    have hpa : p ∉ a := fun hmem => (List.nodup_append.mp hd.1).2.2 p hmem p (by simp) rfl
    obtain ⟨hprev, hnext⟩ := h.linked.at_middle
    rw [List.getLast?_concat, Option.some_or] at hprev
    rw [Option.or_none] at hnext
    have hsplit := h.linked
    rw [linked_append] at hsplit
    obtain ⟨hbefore, -, -, hafter⟩ := hsplit
    -- `del->prev->next = del->next`
    obtain ⟨c₁, h₁, hP₁, hN₁, hr₁⟩ := L.write_setNext (i := p) (c := c) (S := a ++ [p] ++ b)
      (h.live (by simp)) b.head? (by simp)
    have hprev₁ : L.prevAt c₁ del = some (some p) := by rw [hP₁, hprev]
    have hnext₁ : L.nextAt c₁ del = some b.head? := by
      rw [hN₁, Function.update_of_ne (hdel p hp).symm, hnext]
    have hbefore₁ := hbefore.set_last (m := b.head?) hpa
    have hafter₁ := hafter.update_next (hnot p hp) (some b.head?)
    rw [← hN₁, ← hP₁] at hbefore₁ hafter₁
    have hhead' : (a ++ [p] ++ b).head? = some h₀ := by rw [hhead]; rfl
    rw [hhead']
    have hfirst : h₀ ∈ a ++ [p] := by rw [hhead]; exact List.mem_cons_self
    have hh₀ : del ≠ h₀ := (hdel h₀ hfirst).symm
    have hne : p ≠ del := hdel p hp
    cases b with
    | nil =>
      obtain ⟨c₂, h₂, hP₂, hN₂, hr₂⟩ := L.write_setPrev (i := h₀) (c := c₁)
        (by rw [hr₁.live]; exact h.live (List.mem_append_left _ hfirst)) (some p)
        (List.mem_append_left _ hfirst)
      rw [List.head?_nil] at h₁ hnext hnext₁
      refine ⟨c₂, by simp [dlDelete, hprev, hne, hh₀, hnext, h₁, hnext₁, hprev₁, h₂],
        ⟨hhead'.symm, hnodup, ?_⟩, hr₁.trans hr₂⟩
      rw [List.append_nil, List.getLast?_concat, hP₂, hN₂, hhead]
      rw [hhead] at hbefore₁ hd
      exact hbefore₁.set_first (List.nodup_cons.mp hd.1).1
    | cons n r' =>
      have hn : n ∈ a ++ [p] ++ n :: r' := by simp
      obtain ⟨c₂, h₂, hP₂, hN₂, hr₂⟩ := L.write_setPrev (i := n) (c := c₁)
        (by rw [hr₁.live]; exact h.live (by simp)) (some p) hn
      rw [List.head?_cons] at h₁ hnext hnext₁
      refine ⟨c₂, by simp [dlDelete, hprev, hne, hh₀, hnext, h₁, hnext₁, hprev₁, h₂],
        ⟨hhead'.symm, hnodup, ?_⟩, hr₁.trans hr₂⟩
      have hlast : (a ++ [p] ++ n :: r').getLast? = (a ++ [p] ++ del :: n :: r').getLast? := by
        simp [List.getLast?_append, List.getLast?_cons_cons]
      have hnr : n ∉ r' := (List.nodup_cons.mp (List.nodup_cons.mp hd.2.1).2).1
      rw [hlast, hP₂, hN₂, linked_append, List.getLast?_concat]
      exact ⟨hbefore₁.update_prev (fun hmem => hnot n hmem List.mem_cons_self) _,
        hafter₁.set_first hnr⟩

/-- The bound of a loop over the list is enough. -/
theorem length_le (h : DList L c head l) : l.length ≤ c.next :=
  Cells.length_le h.nodup fun _ => h.live

theorem nodes_eq (h : DList L c head l) : dlNodes L c c.next head = l := by
  have hall : ∀ (k : List ℕ) (q : Option ℕ) (fuel : ℕ),
      Linked (L.prevAt c) (L.nextAt c) q k none → k.length ≤ fuel → dlNodes L c fuel k.head? = k := by
    intro k
    induction k with
    | nil =>
      intro q fuel _ _
      rw [List.head?_nil, dlNodes]
    | cons i k ih =>
      intro q fuel hlinked hf
      obtain ⟨fuel, rfl⟩ : ∃ n, fuel = n + 1 := ⟨fuel - 1, by simp at hf; omega⟩
      obtain ⟨-, hnext, hlinked⟩ := hlinked
      rw [Option.or_none] at hnext
      rw [List.head?_cons, dlNodes, hnext, Option.join_some, ih (some i) fuel hlinked (by simpa using hf)]
  rw [h.head_eq]
  exact hall l _ _ h.linked h.length_le

end DList

/-- A rule for `DL_FOREACH_SAFE`: what holds with the nodes `k` still to come. -/
theorem dlForeachSafe_rule {σ : Type} {heap : σ → Cells ν} {body : ℕ → σ → Option σ}
    (P : List ℕ → σ → Prop)
    (hbody : ∀ i k s, P (i :: k) s → L.nextAt (heap s) i = some k.head? ∧
      ∃ s', body i s = some s' ∧ P k s')
    {s : σ} (hs : P l s) {fuel : ℕ} (hf : l.length ≤ fuel) :
    ∃ s', dlForeachSafe L heap body fuel l.head? s = some s' ∧ P [] s' := by
  induction l generalizing s fuel with
  | nil => exact ⟨s, by rw [List.head?_nil, dlForeachSafe], hs⟩
  | cons i k ih =>
    obtain ⟨fuel, rfl⟩ : ∃ n, fuel = n + 1 := ⟨fuel - 1, by simp at hf; omega⟩
    obtain ⟨hnext, s₁, h₁, hs₁⟩ := hbody i k s hs
    obtain ⟨s', hs', hend⟩ := ih hs₁ (by simpa using hf)
    refine ⟨s', ?_, hend⟩
    simp only [List.head?_cons, dlForeachSafe, hnext, h₁, Option.bind_eq_bind, Option.bind_some]
    exact hs'

/-! ### Several lists in one heap -/

/-- Every node of the heap is in exactly one of the lists, but `loose` is in none. -/
structure DLists {ι : Type} (L : Hook ν β) (c : Cells ν) (heads : ι → Option ℕ)
    (lists : ι → List ℕ) (loose : Option ℕ) : Prop where
  list : ∀ x, DList L c (heads x) (lists x)
  apart : ∀ x y i, i ∈ lists x → i ∈ lists y → x = y
  cover : ∀ i, (c.get i).isSome ↔ i ∈ loose ∨ ∃ x, i ∈ lists x
  out : ∀ i ∈ loose, ∀ x, i ∉ lists x

namespace DLists
variable {ι : Type} {heads : ι → Option ℕ} {lists : ι → List ℕ} {loose : Option ℕ} {x : ι} {i : ℕ}

theorem live (h : DLists L c heads lists loose) (hi : i ∈ lists x) : (c.get i).isSome :=
  (h.list x).live hi

theorem empty : DLists L Cells.empty (fun _ : ι => none) (fun _ => []) none where
  list x := .nil _
  apart x y i hi := by cases hi
  cover i := by simp
  out i hi := by cases hi

/-- A node that was allocated is in no list. -/
theorem alloc (h : DLists L c heads lists none) (a : ν) :
    DLists L (c.alloc a) heads lists (some c.next) := by
  have hnew : ∀ x, c.next ∉ lists x := by
    intro x hx
    have hlive := h.live hx
    rw [Cells.get_next] at hlive
    cases hlive
  refine ⟨fun x => (h.list x).congr fun i hi => ?_, h.apart, fun i => ?_, fun i hi x => ?_⟩
  · rw [Cells.get_alloc, if_neg]
    rintro rfl
    exact hnew x hi
  · rw [Cells.get_alloc]
    split
    case isTrue hi => simp [hi]
    case isFalse hi =>
      have hcover := h.cover i
      simp only [Option.mem_def, Option.some.injEq, reduceCtorEq, false_or, Ne.symm hi] at hcover ⊢
      exact hcover
  · obtain rfl : c.next = i := Option.some.inj hi
    exact hnew x

theorem release (h : DLists L c heads lists (some i)) :
    ∃ c', c.release i = some c' ∧ DLists L c' heads lists none ∧ c'.next = c.next ∧
      ∀ j, j ≠ i → c'.get j = c.get j := by
  have hlive := (h.cover i).mpr (.inl rfl)
  have hout := h.out i rfl
  obtain ⟨a, ha⟩ := Option.isSome_iff_exists.mp hlive
  have hframe : ∀ j, j ≠ i → (c.free i).get j = c.get j := fun j hj => by
    rw [Cells.get_free, if_neg hj]
  refine ⟨c.free i, by rw [Cells.release, ha]; rfl, ⟨fun x => (h.list x).congr fun j hj =>
    hframe j (ne_of_mem_of_not_mem hj (hout x)), h.apart, fun j => ?_, nofun⟩, rfl, hframe⟩
  rw [Cells.get_free]
  split
  case isTrue hj =>
    subst hj
    simpa using hout
  case isFalse hj =>
    have hcover := h.cover j
    simp only [Option.mem_def, Option.some.injEq, Ne.symm hj, reduceCtorEq, false_or] at hcover ⊢
    exact hcover

/-- A write to the rest of a node. -/
theorem write_body {f : ν → ν} (h : DLists L c heads lists loose) (hi : (c.get i).isSome)
    (hprev : ∀ a, L.prev (f a) = L.prev a) (hnext : ∀ a, L.next (f a) = L.next a) :
    ∃ c', c.write i f = some c' ∧ DLists L c' heads lists loose ∧ c'.next = c.next ∧
      c'.get i = (c.get i).map f ∧ ∀ j, j ≠ i → c'.get j = c.get j := by
  obtain ⟨a, ha⟩ := Option.isSome_iff_exists.mp hi
  have hP : L.prevAt (c.modify i f) = L.prevAt c := by
    funext j
    rw [Hook.prevAt, Hook.prevAt, Cells.get_modify]
    split
    · cases c.get j with
      | none => rfl
      | some b => exact congrArg some (hprev b)
    · rfl
  have hN : L.nextAt (c.modify i f) = L.nextAt c := by
    funext j
    rw [Hook.nextAt, Hook.nextAt, Cells.get_modify]
    split
    · cases c.get j with
      | none => rfl
      | some b => exact congrArg some (hnext b)
    · rfl
  refine ⟨c.modify i f, by rw [Cells.write, ha]; rfl,
    ⟨fun x => ⟨(h.list x).head_eq, (h.list x).nodup, ?_⟩, h.apart, fun j => ?_, h.out⟩, rfl,
    Cells.get_modify_self c i f, fun j hj => Cells.get_modify_of_ne c f hj⟩
  · rw [hP, hN]
    exact (h.list x).linked
  · rw [← h.cover j, Cells.get_modify]
    split
    · rw [Option.isSome_map]
    · rfl

variable [DecidableEq ι]

/-- What an operation on the list `x` leaves of the others. -/
theorem of_relinks {k : List ℕ} {head' loose' : Option ℕ} (h : DLists L c heads lists loose)
    (hr : L.Relinks c c' k) (hk : DList L c' head' k)
    (hsub : ∀ j, (j ∈ loose' ∨ j ∈ k) ↔ (j ∈ loose ∨ j ∈ lists x))
    (hout : ∀ j ∈ loose', j ∉ k) :
    DLists L c' (Function.update heads x head') (Function.update lists x k) loose' := by
  have hother : ∀ y, y ≠ x → ∀ j ∈ lists y, j ∉ loose' ∧ j ∉ k := by
    intro y hy j hj
    have hnot : ¬ (j ∈ loose ∨ j ∈ lists x) := by
      rintro (hl | hx)
      · exact h.out j hl y hj
      · exact hy (h.apart y x j hj hx)
    rw [← hsub j, not_or] at hnot
    exact hnot
  refine ⟨fun y => ?_, fun y z j hj hj' => ?_, fun j => ?_, fun j hj y => ?_⟩
  · by_cases hy : y = x
    · subst hy
      rw [Function.update_self, Function.update_self]
      exact hk
    · rw [Function.update_of_ne hy, Function.update_of_ne hy]
      exact (h.list y).congr fun j hj => hr.frame j (hother y hy j hj).2
  · by_cases hy : y = x
    · subst hy
      by_contra hne
      rw [Function.update_self] at hj
      rw [Function.update_of_ne (Ne.symm hne)] at hj'
      exact (hother z (Ne.symm hne) j hj').2 hj
    · rw [Function.update_of_ne hy] at hj
      by_cases hz : z = x
      · subst hz
        rw [Function.update_self] at hj'
        exact absurd hj' (hother y hy j hj).2
      · rw [Function.update_of_ne hz] at hj'
        exact h.apart y z j hj hj'
  · rw [hr.live, h.cover]
    constructor
    · rintro (hl | ⟨y, hy⟩)
      · rcases (hsub j).mpr (.inl hl) with hl | hk
        · exact .inl hl
        · exact .inr ⟨x, by rwa [Function.update_self]⟩
      · by_cases hyx : y = x
        · subst hyx
          rcases (hsub j).mpr (.inr hy) with hl | hk
          · exact .inl hl
          · exact .inr ⟨y, by rwa [Function.update_self]⟩
        · exact .inr ⟨y, by rwa [Function.update_of_ne hyx]⟩
    · rintro (hl | ⟨y, hy⟩)
      · rcases (hsub j).mp (.inl hl) with hl | hx
        · exact .inl hl
        · exact .inr ⟨x, hx⟩
      · by_cases hyx : y = x
        · subst hyx
          rw [Function.update_self] at hy
          rcases (hsub j).mp (.inr hy) with hl | hx
          · exact .inl hl
          · exact .inr ⟨y, hx⟩
        · rw [Function.update_of_ne hyx] at hy
          exact .inr ⟨y, hy⟩
  · by_cases hy : y = x
    · subst hy
      rw [Function.update_self]
      exact hout j hj
    · rw [Function.update_of_ne hy]
      exact fun hmem => (hother y hy j hmem).1 hj

theorem delete {a b : List ℕ} (h : DLists L c heads lists none) (hx : lists x = a ++ del :: b) :
    ∃ c', dlDelete L c (heads x) del = some (c', (a ++ b).head?) ∧
      DLists L c' (Function.update heads x (a ++ b).head?) (Function.update lists x (a ++ b))
        (some del) ∧ L.bodyAt c' = L.bodyAt c ∧ c'.next = c.next := by
  have hlist := h.list x
  rw [hx] at hlist
  obtain ⟨c', hdel, hl, hr⟩ := hlist.delete
  have hnot : del ∉ a ++ b := (List.nodup_middle.mp hlist.nodup |> List.nodup_cons.mp).1
  refine ⟨c', hdel, h.of_relinks hr hl (fun j => ?_) fun j hj => ?_, hr.body, hr.next⟩
  · rw [hx]
    simp only [Option.mem_def, Option.some.injEq, reduceCtorEq, List.mem_append, List.mem_cons,
      false_or, @eq_comm ℕ del]
    tauto
  · obtain rfl : del = j := Option.some.inj hj
    exact hnot

theorem append (h : DLists L c heads lists (some add)) (x : ι) :
    ∃ c', dlAppend L c (heads x) add = some (c', (lists x ++ [add]).head?) ∧
      DLists L c' (Function.update heads x (lists x ++ [add]).head?)
        (Function.update lists x (lists x ++ [add])) none ∧
      L.bodyAt c' = L.bodyAt c ∧ c'.next = c.next := by
  obtain ⟨c', happ, hl, hr⟩ := (h.list x).append (h.out add rfl x) ((h.cover add).mpr (.inl rfl))
  refine ⟨c', happ, h.of_relinks hr hl (fun j => ?_) nofun, hr.body, hr.next⟩
  simp only [Option.mem_def, Option.some.injEq, reduceCtorEq, List.mem_append, List.mem_singleton,
    false_or, @eq_comm ℕ add]
  tauto

end DLists

end PubSub
