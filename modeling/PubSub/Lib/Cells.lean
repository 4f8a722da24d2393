import Mathlib.Algebra.BigOperators.Group.Finset.Basic
import Mathlib.Algebra.Order.BigOperators.Group.Finset
import Mathlib.Data.List.Basic

/-! A heap of cells with addresses that are never used twice. A cell is
allocated at the next address, changed in place, and freed for good, so an
address that was freed can be told from one that is live. Sums over the live
cells change by exactly what the operation changes. -/

namespace PubSub.Lib

/-- `get i` is the content of the cell at address `i`, if it is live. No
address from `next` on has been allocated. -/
structure Cells (α : Type) where
  next : ℕ
  get : ℕ → Option α
  fresh : ∀ i, next ≤ i → get i = none

namespace Cells

variable {α : Type}

def empty : Cells α := ⟨0, fun _ => none, fun _ _ => rfl⟩

/-- A new cell, at address `c.next`. -/
def alloc (c : Cells α) (a : α) : Cells α where
  next := c.next + 1
  get i := if i = c.next then some a else c.get i
  fresh i hi := by rw [if_neg (by omega)]; exact c.fresh i (by omega)

def modify (c : Cells α) (i : ℕ) (f : α → α) : Cells α where
  next := c.next
  get j := if j = i then (c.get j).map f else c.get j
  fresh j hj := by simp [c.fresh j hj]

def free (c : Cells α) (i : ℕ) : Cells α where
  next := c.next
  get j := if j = i then none else c.get j
  fresh j hj := by simp [c.fresh j hj]

/-- The live cell at `i` with the new content `o`, or freed. -/
def set (c : Cells α) (i : ℕ) (o : Option α) : Cells α where
  next := c.next
  get j := if j = i then (c.get i).bind fun _ => o else c.get j
  fresh j hj := by
    split
    case isTrue h => rw [← h, c.fresh j hj, Option.bind_none]
    case isFalse => exact c.fresh j hj

/-- The live addresses, oldest first. -/
def ids (c : Cells α) : List ℕ := (List.range c.next).filter fun i => (c.get i).isSome

/-- The oldest live cell that passes the test. -/
def find? (c : Cells α) (p : α → Bool) : Option ℕ :=
  (List.range c.next).find? fun i => (c.get i).any p

/-- The sum of `f` over the live cells. -/
def sum (c : Cells α) (f : α → ℕ) : ℕ := ∑ i ∈ Finset.range c.next, (c.get i).elim 0 f

/-- The number of live cells. -/
def size (c : Cells α) : ℕ := c.sum fun _ => 1

/-- The contents of the live cells, oldest first. -/
def values (c : Cells α) : List α := (List.range c.next).filterMap c.get

/-- The cells with their contents seen through `f`. -/
def map {β : Type} (c : Cells α) (f : α → β) : Cells β where
  next := c.next
  get i := (c.get i).map f
  fresh i hi := by rw [c.fresh i hi, Option.map_none]

@[simp] theorem get_empty (i : ℕ) : (empty : Cells α).get i = none := rfl

@[simp] theorem next_alloc (c : Cells α) (a : α) : (c.alloc a).next = c.next + 1 := rfl

@[simp] theorem next_modify (c : Cells α) (i : ℕ) (f : α → α) : (c.modify i f).next = c.next := rfl

@[simp] theorem next_free (c : Cells α) (i : ℕ) : (c.free i).next = c.next := rfl

theorem get_alloc (c : Cells α) (a : α) (i : ℕ) :
    (c.alloc a).get i = if i = c.next then some a else c.get i := rfl

@[simp] theorem get_alloc_self (c : Cells α) (a : α) : (c.alloc a).get c.next = some a := by
  simp [get_alloc]

theorem get_modify (c : Cells α) (i j : ℕ) (f : α → α) :
    (c.modify i f).get j = if j = i then (c.get j).map f else c.get j := rfl

@[simp] theorem get_modify_self (c : Cells α) (i : ℕ) (f : α → α) :
    (c.modify i f).get i = (c.get i).map f := by
  simp [get_modify]

theorem get_modify_of_ne (c : Cells α) {i j : ℕ} (f : α → α) (h : j ≠ i) :
    (c.modify i f).get j = c.get j := by
  simp [get_modify, h]

theorem get_free (c : Cells α) (i j : ℕ) :
    (c.free i).get j = if j = i then none else c.get j := rfl

theorem get_set {c : Cells α} {i : ℕ} {a : α} (h : c.get i = some a) (o : Option α) (j : ℕ) :
    (c.set i o).get j = if j = i then o else c.get j := by
  simp [set, h]

theorem ext_get {c d : Cells α} (hn : d.next = c.next) (h : ∀ i, d.get i = c.get i) : d = c := by
  obtain ⟨n, g, hf⟩ := c
  obtain ⟨n', g', hf'⟩ := d
  obtain rfl : n' = n := hn
  obtain rfl : g' = g := funext h
  rfl

theorem modify_eq_set {c : Cells α} {i : ℕ} {a : α} (h : c.get i = some a) (f : α → α) :
    c.modify i f = c.set i (some (f a)) := by
  refine ext_get (c := c.set i (some (f a))) rfl fun j => ?_
  rw [get_set h, get_modify]
  split
  case isTrue hj => rw [hj, h, Option.map_some]
  case isFalse => rfl

theorem modify_modify_const (c : Cells α) (i : ℕ) (f : α → α) (b : α) :
    (c.modify i f).modify i (fun _ => b) = c.modify i fun _ => b := by
  refine ext_get (c := c.modify i fun _ => b) rfl fun j => ?_
  rw [get_modify, get_modify, get_modify]
  split
  · cases c.get j <;> rfl
  · rfl

/-- Changes that commute may be made in either order. -/
theorem modify_comm (c : Cells α) (i j : ℕ) {f g : α → α} (h : ∀ a, f (g a) = g (f a)) :
    (c.modify j g).modify i f = (c.modify i f).modify j g := by
  refine ext_get rfl fun k => ?_
  simp only [get_modify]
  cases c.get k with
  | none => simp
  | some a =>
    split
    · split <;> simp [h]
    · rfl

theorem free_modify_comm (c : Cells α) (i j : ℕ) (f : α → α) :
    (c.modify j f).free i = (c.free i).modify j f := by
  refine ext_get rfl fun k => ?_
  simp only [get_modify, get_free]
  by_cases hk : k = i
  · simp [hk]
  · simp [hk]

theorem set_self {c : Cells α} {i : ℕ} {a : α} (h : c.get i = some a) : c.set i (some a) = c := by
  refine ext_get (c := c) rfl fun j => ?_
  rw [get_set h]
  split
  case isTrue hj => rw [hj, h]
  case isFalse => rfl

theorem free_modify {c : Cells α} {i : ℕ} {a : α} (h : c.get i = some a) (f : α → α) :
    (c.modify i f).free i = c.set i none := by
  refine ext_get (c := c.set i none) rfl fun j => ?_
  rw [get_set h, get_free]
  split
  case isTrue => rfl
  case isFalse hj => exact get_modify_of_ne c f hj

theorem get_next (c : Cells α) : c.get c.next = none := c.fresh _ le_rfl

theorem lt_next {c : Cells α} {i : ℕ} {a : α} (h : c.get i = some a) : i < c.next := by
  by_contra hi
  rw [c.fresh i (by omega)] at h
  cases h

theorem mem_ids {c : Cells α} {i : ℕ} : i ∈ c.ids ↔ (c.get i).isSome := by
  simp only [ids, List.mem_filter, List.mem_range, and_iff_right_iff_imp]
  intro h
  obtain ⟨a, ha⟩ := Option.isSome_iff_exists.mp h
  exact lt_next ha

theorem ids_nodup (c : Cells α) : c.ids.Nodup := List.nodup_range.filter _

theorem ids_alloc (c : Cells α) (a : α) : (c.alloc a).ids = c.ids ++ [c.next] := by
  rw [ids, next_alloc, List.range_succ, List.filter_append, ids]
  congr 1
  · refine List.filter_congr fun i hi => ?_
    rw [get_alloc, if_neg (List.mem_range.mp hi).ne]
  · rw [List.filter_singleton, get_alloc_self]
    rfl

theorem ids_congr {c d : Cells α} (hn : d.next = c.next)
    (h : ∀ i, (d.get i).isSome = (c.get i).isSome) : d.ids = c.ids := by
  rw [ids, ids, hn]
  exact List.filter_congr fun i _ => h i

theorem ids_modify (c : Cells α) (i : ℕ) (f : α → α) : (c.modify i f).ids = c.ids := by
  refine ids_congr rfl fun j => ?_
  rw [get_modify]
  split
  · rw [Option.isSome_map]
  · rfl

theorem ids_free {c : Cells α} {i : ℕ} {a b : List ℕ} (h : c.ids = a ++ i :: b) :
    (c.free i).ids = a ++ b := by
  have hfilter : (c.free i).ids = c.ids.filter fun j => j ≠ i := by
    rw [ids, ids, next_free, List.filter_filter]
    refine List.filter_congr fun j _ => ?_
    rw [get_free]
    by_cases hj : j = i <;> simp [hj]
  have hnodup := c.ids_nodup
  rw [h, List.nodup_middle, List.nodup_cons] at hnodup
  rw [hfilter, h, List.filter_append, List.filter_cons_of_neg (by simp), ← List.filter_append,
    List.filter_eq_self]
  exact fun j hj => decide_eq_true (ne_of_mem_of_not_mem hj hnodup.1)

/-! ### Contents in order -/

theorem mem_values {c : Cells α} {a : α} : a ∈ c.values ↔ ∃ i, c.get i = some a := by
  rw [values, List.mem_filterMap]
  constructor
  · rintro ⟨i, -, hi⟩
    exact ⟨i, hi⟩
  · rintro ⟨i, hi⟩
    exact ⟨i, List.mem_range.mpr (lt_next hi), hi⟩

theorem values_alloc (c : Cells α) (a : α) : (c.alloc a).values = c.values ++ [a] := by
  rw [values, next_alloc, List.range_succ, List.filterMap_append, values]
  congr 1
  · refine List.filterMap_congr fun i hi => ?_
    rw [get_alloc, if_neg (List.mem_range.mp hi).ne]
  · rw [List.filterMap_cons, get_alloc_self]
    rfl

/-- A change at one address is a change at one place. -/
theorem values_set {c : Cells α} {i : ℕ} {a : α} (h : c.get i = some a) :
    ∃ l r, c.values = l ++ a :: r ∧ (∀ o, (c.set i o).values = l ++ o.toList ++ r) ∧
      (∀ b ∈ l, ∃ j, j ≠ i ∧ c.get j = some b) ∧ ∀ b ∈ r, ∃ j, j ≠ i ∧ c.get j = some b := by
  obtain ⟨x, y, hxy⟩ := List.append_of_mem (List.mem_range.mpr (lt_next h))
  have hnodup : (List.range c.next).Nodup := List.nodup_range
  rw [hxy, List.nodup_middle, List.nodup_cons, List.mem_append, not_or] at hnodup
  obtain ⟨⟨hx, hy⟩, -⟩ := hnodup
  have hrest : ∀ z : List ℕ, i ∉ z → ∀ b ∈ z.filterMap c.get, ∃ j, j ≠ i ∧ c.get j = some b := by
    intro z hz b hb
    obtain ⟨j, hj, hb⟩ := List.mem_filterMap.mp hb
    exact ⟨j, ne_of_mem_of_not_mem hj hz, hb⟩
  refine ⟨x.filterMap c.get, y.filterMap c.get, ?_, fun o => ?_, hrest x hx, hrest y hy⟩
  · rw [values, hxy, List.filterMap_append, List.filterMap_cons_some h]
  · have hsame : ∀ z : List ℕ, i ∉ z → z.filterMap (c.set i o).get = z.filterMap c.get := by
      intro z hz
      refine List.filterMap_congr fun j hj => ?_
      rw [get_set h, if_neg (ne_of_mem_of_not_mem hj hz)]
    have hnext : (c.set i o).next = c.next := rfl
    rw [values, hnext, hxy, List.filterMap_append, List.filterMap_cons, hsame x hx, hsame y hy,
      get_set h, if_pos rfl, List.append_assoc]
    cases o <;> rfl

/-- A change of every cell by itself. -/
theorem values_bind {c d : Cells α} {g : α → Option α} (hn : d.next = c.next)
    (h : ∀ i, d.get i = (c.get i).bind g) : d.values = c.values.filterMap g := by
  rw [values, values, hn, List.filterMap_filterMap]
  exact List.filterMap_congr fun i _ => h i

/-- A loop over addresses whose round changes the cell at its address by itself. `P` is what
the rounds need and keep. -/
theorem foldlM_set {σ : Type} (cells : σ → Cells α) (g : α → Option α) (P : σ → Prop)
    {f : σ → ℕ → Option σ} (hf : ∀ s i s', P s → f s i = some s' → P s' ∧
      ∃ a, (cells s).get i = some a ∧ cells s' = (cells s).set i (g a))
    {l : List ℕ} {s s' : σ} (hP : P s) (hd : l.Nodup)
    (h : l.foldlM f s = some s') : P s' ∧ (cells s').next = (cells s).next ∧
      ∀ i, (cells s').get i = if i ∈ l then ((cells s).get i).bind g else (cells s).get i := by
  induction l generalizing s with
  | nil =>
    cases h
    exact ⟨hP, rfl, fun _ => rfl⟩
  | cons j l ih =>
    obtain ⟨hj, hd⟩ := List.nodup_cons.mp hd
    rw [List.foldlM_cons] at h
    obtain ⟨s₁, h₁, h⟩ := Option.bind_eq_some_iff.mp h
    obtain ⟨hP₁, a, ha, hset⟩ := hf s j s₁ hP h₁
    obtain ⟨hP', hnext, hget⟩ := ih hP₁ hd h
    rw [hset] at hnext hget
    refine ⟨hP', hnext, fun i => ?_⟩
    rw [hget, get_set ha]
    by_cases hij : i = j
    · subst hij
      rw [if_neg hj, if_pos rfl, if_pos List.mem_cons_self, ha, Option.bind_some]
    · rw [if_neg hij]
      simp only [List.mem_cons, hij, false_or]

theorem filterMap_ids {β : Type} (c : Cells α) (g : α → Option β) :
    (c.ids.filterMap fun i => (c.get i).bind g) = c.values.filterMap g := by
  rw [ids, values, List.filterMap_filter, List.filterMap_filterMap]
  refine List.filterMap_congr fun i _ => ?_
  cases c.get i <;> rfl

section Map
variable {β : Type} (c : Cells α) (f : α → β)

@[simp] theorem next_map : (c.map f).next = c.next := rfl

theorem get_map (i : ℕ) : (c.map f).get i = (c.get i).map f := rfl

theorem map_alloc (a : α) : (c.alloc a).map f = (c.map f).alloc (f a) := by
  refine ext_get (c := (c.map f).alloc (f a)) rfl fun i => ?_
  rw [get_map, get_alloc, get_alloc, next_map]
  split <;> rfl

theorem map_free (i : ℕ) : (c.free i).map f = (c.map f).free i := by
  refine ext_get (c := (c.map f).free i) rfl fun j => ?_
  rw [get_map, get_free, get_free]
  split <;> rfl

theorem map_modify (i : ℕ) (a : α) :
    (c.modify i fun _ => a).map f = (c.map f).modify i fun _ => f a := by
  refine ext_get (c := (c.map f).modify i fun _ => f a) rfl fun j => ?_
  rw [get_map, get_modify, get_modify, get_map]
  split
  · cases c.get j <;> rfl
  · rfl

/-- A change that `f` does not see. -/
theorem map_modify_same {i : ℕ} {a b : α} (h : c.get i = some a) (hf : f b = f a) :
    (c.modify i fun _ => b).map f = c.map f := by
  refine ext_get (c := c.map f) rfl fun j => ?_
  rw [get_map, get_modify, get_map]
  split
  case isTrue hj => rw [hj, h, Option.map_some, Option.map_some, Option.map_some, hf]
  case isFalse => rfl

end Map

theorem find?_some {c : Cells α} {p : α → Bool} {i : ℕ} (h : c.find? p = some i) :
    ∃ a, c.get i = some a ∧ p a = true := by
  simpa [Option.any_eq_true] using List.find?_some h

theorem find?_none {c : Cells α} {p : α → Bool} (h : c.find? p = none) {i : ℕ} {a : α}
    (hi : c.get i = some a) : p a = false := by
  have := List.find?_eq_none.mp h i (List.mem_range.mpr (lt_next hi))
  simpa [hi] using this

/-- A test that only one live cell passes finds that cell. -/
theorem find?_eq_some {c : Cells α} {p : α → Bool} {i : ℕ} {a : α} (hi : c.get i = some a)
    (hp : p a = true) (hu : ∀ j b, c.get j = some b → p b = true → j = i) :
    c.find? p = some i := by
  cases h : c.find? p with
  | none => rw [find?_none h hi] at hp; cases hp
  | some j =>
    obtain ⟨b, hb, hpb⟩ := find?_some h
    rw [hu j b hb hpb]

/-! ### Sums -/

theorem sum_alloc (c : Cells α) (a : α) (f : α → ℕ) : (c.alloc a).sum f = c.sum f + f a := by
  have hs : ∀ i ∈ Finset.range c.next, ((c.alloc a).get i).elim 0 f = (c.get i).elim 0 f := by
    intro i hi
    rw [get_alloc, if_neg (Finset.mem_range.mp hi).ne]
  simp only [sum, next_alloc, Finset.sum_range_succ, get_alloc_self, Option.elim_some]
  rw [Finset.sum_congr rfl hs]

/-- A change at one address changes the sum at that address only. -/
theorem sum_change {c d : Cells α} {i : ℕ} (f : α → ℕ) (hi : i < c.next) (hn : d.next = c.next)
    (h : ∀ j, j ≠ i → d.get j = c.get j) :
    d.sum f + (c.get i).elim 0 f = c.sum f + (d.get i).elim 0 f := by
  have hr : ∀ e : Cells α, e.next = c.next →
      e.sum f = (e.get i).elim 0 f + ∑ j ∈ (Finset.range c.next).erase i, (e.get j).elim 0 f := by
    intro e he
    rw [sum, he, Finset.add_sum_erase _ (fun j => (e.get j).elim 0 f) (Finset.mem_range.mpr hi)]
  have hs : ∑ j ∈ (Finset.range c.next).erase i, (d.get j).elim 0 f =
      ∑ j ∈ (Finset.range c.next).erase i, (c.get j).elim 0 f := by
    refine Finset.sum_congr rfl fun j hj => ?_
    rw [h j (Finset.ne_of_mem_erase hj)]
  rw [hr c rfl, hr d hn, hs]
  omega

theorem sum_modify {c : Cells α} {i : ℕ} {a : α} (h : c.get i = some a) (g : α → α) (f : α → ℕ) :
    (c.modify i g).sum f + f a = c.sum f + f (g a) := by
  have := sum_change (d := c.modify i g) f (lt_next h) rfl fun j hj => get_modify_of_ne c g hj
  simpa [h] using this

theorem sum_modify_same {c : Cells α} {i : ℕ} {g : α → α} {f : α → ℕ} (h : ∀ a, f (g a) = f a) :
    (c.modify i g).sum f = c.sum f := by
  refine Finset.sum_congr rfl fun j _ => ?_
  rw [get_modify]
  split
  · cases c.get j <;> simp [h]
  · rfl

theorem sum_free {c : Cells α} {i : ℕ} {a : α} (h : c.get i = some a) (f : α → ℕ) :
    (c.free i).sum f + f a = c.sum f := by
  have := sum_change (d := c.free i) f (lt_next h) rfl fun j hj => by simp [get_free, hj]
  simpa [h, get_free] using this

theorem sum_set {c : Cells α} {i : ℕ} {a : α} (h : c.get i = some a) (o : Option α) (f : α → ℕ) :
    (c.set i o).sum f + f a = c.sum f + o.elim 0 f := by
  have := sum_change (d := c.set i o) f (lt_next h) rfl fun j hj => by rw [get_set h, if_neg hj]
  simpa [h, get_set h] using this

theorem le_sum {c : Cells α} {i : ℕ} {a : α} (h : c.get i = some a) (f : α → ℕ) :
    f a ≤ c.sum f := by
  have := sum_free h f
  omega

theorem sum_eq_zero {c : Cells α} {f : α → ℕ} :
    c.sum f = 0 ↔ ∀ i a, c.get i = some a → f a = 0 := by
  constructor
  · intro h i a hi
    have := le_sum hi f
    omega
  · intro h
    refine Finset.sum_eq_zero fun i _ => ?_
    cases hi : c.get i with
    | none => rfl
    | some a => exact h i a hi

theorem size_eq_zero {c : Cells α} : c.size = 0 ↔ ∀ i, c.get i = none := by
  rw [size, sum_eq_zero]
  constructor
  · intro h i
    cases hi : c.get i with
    | none => rfl
    | some a => exact absurd (h i a hi) (by omega)
  · intro h i a hi
    rw [h i] at hi
    cases hi

theorem size_alloc (c : Cells α) (a : α) : (c.alloc a).size = c.size + 1 := sum_alloc c a _

@[simp] theorem size_modify (c : Cells α) (i : ℕ) (g : α → α) : (c.modify i g).size = c.size :=
  sum_modify_same fun _ => rfl

theorem size_free {c : Cells α} {i : ℕ} {a : α} (h : c.get i = some a) :
    (c.free i).size + 1 = c.size := sum_free h _

end Cells

end PubSub.Lib
