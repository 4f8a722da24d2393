import PubSub.Lib.Cells
import Mathlib.Logic.Function.Basic

/-! Nodes of a heap that are linked in both directions. A hook is the two pointers of a
node; a node may have several. The lemmas on `Linked` are about the two pointers as
functions of the address, so a write is an update of one of them. -/

namespace PubSub.Lib

/-- The pointers `prev` and `next` of a node and the rest of it, its `body`. -/
structure Hook (ν β : Type) where
  prev : ν → Option ℕ
  next : ν → Option ℕ
  body : ν → β
  setPrev : Option ℕ → ν → ν
  setNext : Option ℕ → ν → ν
  prev_setPrev : ∀ p a, prev (setPrev p a) = p
  next_setPrev : ∀ p a, next (setPrev p a) = next a
  body_setPrev : ∀ p a, body (setPrev p a) = body a
  prev_setNext : ∀ n a, prev (setNext n a) = prev a
  next_setNext : ∀ n a, next (setNext n a) = n
  body_setNext : ∀ n a, body (setNext n a) = body a

/-! ### Linked segments -/

/-- The nodes `l` are linked in that order, after `p` and before `n`. -/
def Linked (P N : ℕ → Option (Option ℕ)) : Option ℕ → List ℕ → Option ℕ → Prop
  | _, [], _ => True
  | p, i :: l, n => P i = some p ∧ N i = some (l.head?.or n) ∧ Linked P N (some i) l n

section Linked
variable {P P' N N' : ℕ → Option (Option ℕ)} {p p' n : Option ℕ} {l k : List ℕ} {i h t : ℕ}

theorem Linked.congr (hl : Linked P N p l n) (hP : ∀ i ∈ l, P' i = P i) (hN : ∀ i ∈ l, N' i = N i) :
    Linked P' N' p l n := by
  induction l generalizing p with
  | nil => trivial
  | cons i l ih =>
    obtain ⟨hp, hn, hl⟩ := hl
    exact ⟨(hP i List.mem_cons_self).trans hp, (hN i List.mem_cons_self).trans hn,
      ih hl (fun j hj => hP j (List.mem_cons_of_mem i hj))
        fun j hj => hN j (List.mem_cons_of_mem i hj)⟩

theorem Linked.update_prev (hl : Linked P N p l n) (hi : i ∉ l) (x : Option (Option ℕ)) :
    Linked (Function.update P i x) N p l n :=
  hl.congr (fun _ hj => Function.update_of_ne (ne_of_mem_of_not_mem hj hi) _ _) fun _ _ => rfl

theorem Linked.update_next (hl : Linked P N p l n) (hi : i ∉ l) (x : Option (Option ℕ)) :
    Linked P (Function.update N i x) p l n :=
  hl.congr (fun _ _ => rfl) fun _ hj => Function.update_of_ne (ne_of_mem_of_not_mem hj hi) _ _

theorem linked_append : Linked P N p (l ++ k) n ↔
    Linked P N p l (k.head?.or n) ∧ Linked P N (l.getLast?.or p) k n := by
  induction l generalizing p with
  | nil => simp [Linked]
  | cons i l ih =>
    have hhead : (l ++ k).head?.or n = l.head?.or (k.head?.or n) := by
      cases l <;> rfl
    have hlast : (i :: l).getLast?.or p = l.getLast?.or (some i) := by
      cases l with
      | nil => rfl
      | cons j l => simp [List.getLast?_cons]
    rw [List.cons_append, Linked, Linked, ih, hhead, hlast]
    tauto

theorem linked_singleton : Linked P N p [i] n ↔ P i = some p ∧ N i = some n := by
  simp [Linked]

/-- Another node before the first. -/
theorem Linked.set_first (hl : Linked P N p (h :: l) n) (hh : h ∉ l) :
    Linked (Function.update P h (some p')) N p' (h :: l) n := by
  obtain ⟨-, hn, hl⟩ := hl
  exact ⟨Function.update_self h _ P, hn, hl.update_prev hh _⟩

/-- Another node after the last. -/
theorem Linked.set_last {m : Option ℕ} (hl : Linked P N p (l ++ [t]) n) (ht : t ∉ l) :
    Linked P (Function.update N t (some m)) p (l ++ [t]) m := by
  rw [linked_append, linked_singleton] at hl ⊢
  obtain ⟨hl, hp, -⟩ := hl
  exact ⟨hl.update_next ht _, hp, Function.update_self t _ N⟩

theorem Linked.live (hl : Linked P N p l n) (hi : i ∈ l) : (P i).isSome ∧ (N i).isSome := by
  induction l generalizing p with
  | nil => cases hi
  | cons j l ih =>
    obtain ⟨hp, hn, hl⟩ := hl
    rcases List.mem_cons.mp hi with rfl | hi
    · exact ⟨by rw [hp]; rfl, by rw [hn]; rfl⟩
    · exact ih hl hi

/-- The node at one place of the list. -/
theorem Linked.at_middle (hl : Linked P N p (k ++ i :: l) n) :
    P i = some (k.getLast?.or p) ∧ N i = some (l.head?.or n) := by
  rw [linked_append] at hl
  exact ⟨hl.2.1, hl.2.2.1⟩

/-- Another node before the first one. -/
theorem Linked.prepend (hl : Linked P N p l none) (hnodup : l.Nodup) (hi : i ∉ l) :
    Linked (l.head?.elim (Function.update P i (some none))
        fun h => Function.update (Function.update P i (some none)) h (some (some i)))
      (Function.update N i (some l.head?)) none (i :: l) none := by
  cases l with
  | nil => exact ⟨Function.update_self _ _ _, Function.update_self _ _ _, trivial⟩
  | cons h r =>
    have hne : i ≠ h := fun heq => hi (heq ▸ List.mem_cons_self)
    refine ⟨?_, ?_, ?_⟩
    · show Function.update (Function.update P i (some none)) h (some (some i)) i = _
      rw [Function.update_of_ne hne, Function.update_self]
    · rw [Function.update_self, Option.or_none]
    · exact ((hl.update_prev hi _).update_next hi _).set_first (List.nodup_cons.mp hnodup).1

/-- One node less. -/
theorem Linked.remove {a b : List ℕ} (hl : Linked P N p (a ++ i :: b) n)
    (hnodup : (a ++ i :: b).Nodup) :
    Linked (b.head?.elim P fun x => Function.update P x (some (a.getLast?.or p)))
      (a.getLast?.elim N fun x => Function.update N x (some (b.head?.or n))) p (a ++ b) n := by
  have hd := List.nodup_append.mp hnodup
  have hb := List.nodup_cons.mp hd.2.1
  rw [linked_append] at hl ⊢
  obtain ⟨hbefore, -, -, hafter⟩ := hl
  constructor
  · have hnext : Linked P (a.getLast?.elim N fun x => Function.update N x (some (b.head?.or n))) p
        a (b.head?.or n) := by
      rcases List.eq_nil_or_concat' a with rfl | ⟨a, q, rfl⟩
      · trivial
      · rw [List.getLast?_concat]
        exact hbefore.set_last fun hmem =>
          (List.nodup_append.mp hd.1).2.2 q hmem q (by simp) rfl
    cases b with
    | nil => exact hnext
    | cons x r =>
      exact hnext.update_prev (fun hx => hd.2.2 x hx x (by simp) rfl) _
  · have hprev : Linked (b.head?.elim P fun x => Function.update P x (some (a.getLast?.or p))) N
        (a.getLast?.or p) b n := by
      cases b with
      | nil => trivial
      | cons x r => exact hafter.set_first (List.nodup_cons.mp hb.2).1
    rcases List.eq_nil_or_concat' a with rfl | ⟨a, q, rfl⟩
    · exact hprev
    · rw [List.getLast?_concat] at hprev ⊢
      exact hprev.update_next (fun hq => hd.2.2 q (by simp) q (List.mem_cons_of_mem i hq) rfl) _

end Linked

/-! ### Pointers in a heap -/

/-- A write through a pointer. -/
def Cells.write {α : Type} (c : Cells α) (i : ℕ) (f : α → α) : Option (Cells α) :=
  (c.get i).map fun _ => c.modify i f

/-- A write through a pointer that is not NULL. -/
def Cells.writeIf {α : Type} (c : Cells α) (p : Option ℕ) (f : α → α) : Option (Cells α) :=
  match p with
  | some i => c.write i f
  | none => some c

/-- `free`. -/
def Cells.release {α : Type} (c : Cells α) (i : ℕ) : Option (Cells α) :=
  (c.get i).map fun _ => c.free i

/-- There are no more nodes than addresses. -/
theorem Cells.length_le {α : Type} {c : Cells α} {l : List ℕ} (hd : l.Nodup)
    (hl : ∀ i ∈ l, (c.get i).isSome) : l.length ≤ c.next := by
  have hsub : l ⊆ List.range c.next := by
    intro i hi
    obtain ⟨a, ha⟩ := Option.isSome_iff_exists.mp (hl i hi)
    exact List.mem_range.mpr (Cells.lt_next ha)
  simpa using (List.subperm_of_subset hd hsub).length_le

namespace Hook
variable {ν β : Type} (L : Hook ν β) {c c' c'' : Cells ν} {i : ℕ}

/-- `i->prev`. -/
def prevAt (c : Cells ν) (i : ℕ) : Option (Option ℕ) := (c.get i).map L.prev

/-- `i->next`. -/
def nextAt (c : Cells ν) (i : ℕ) : Option (Option ℕ) := (c.get i).map L.next

def bodyAt (c : Cells ν) (i : ℕ) : Option β := (c.get i).map L.body

/-- The heap `c'` is `c` with other pointers in the nodes `S`. -/
structure Relinks (c c' : Cells ν) (S : List ℕ) : Prop where
  next : c'.next = c.next
  body : L.bodyAt c' = L.bodyAt c
  frame : ∀ i ∉ S, c'.get i = c.get i

variable {L} {S T : List ℕ}

theorem Relinks.refl (c : Cells ν) : L.Relinks c c S := ⟨rfl, rfl, fun _ _ => rfl⟩

theorem Relinks.mono (h : L.Relinks c c' S) (hST : S ⊆ T) : L.Relinks c c' T :=
  ⟨h.next, h.body, fun i hi => h.frame i fun hS => hi (hST hS)⟩

theorem Relinks.trans (h₁ : L.Relinks c c' S) (h₂ : L.Relinks c' c'' S) : L.Relinks c c'' S :=
  ⟨h₂.next.trans h₁.next, h₂.body.trans h₁.body, fun i hi => (h₂.frame i hi).trans (h₁.frame i hi)⟩

theorem isSome_bodyAt (c : Cells ν) (i : ℕ) : (L.bodyAt c i).isSome = (c.get i).isSome :=
  Option.isSome_map

theorem Relinks.live (h : L.Relinks c c' S) (i : ℕ) : (c'.get i).isSome = (c.get i).isSome := by
  rw [← isSome_bodyAt (L := L), h.body, isSome_bodyAt]

/-- `i->prev = p`. -/
theorem write_setPrev (hi : (c.get i).isSome) (p : Option ℕ) (hS : i ∈ S) :
    ∃ c', c.write i (L.setPrev p) = some c' ∧
      L.prevAt c' = Function.update (L.prevAt c) i (some p) ∧ L.nextAt c' = L.nextAt c ∧
      L.Relinks c c' S := by
  obtain ⟨a, ha⟩ := Option.isSome_iff_exists.mp hi
  refine ⟨c.modify i (L.setPrev p), by rw [Cells.write, ha]; rfl, ?_, ?_, rfl, ?_, fun j hj => ?_⟩
  · funext j
    by_cases hj : j = i
    · subst hj
      rw [Function.update_self, prevAt, Cells.get_modify_self, ha]
      exact congrArg some (L.prev_setPrev p a)
    · rw [Function.update_of_ne hj, prevAt, Cells.get_modify_of_ne c _ hj, prevAt]
  · funext j
    rw [nextAt, nextAt, Cells.get_modify]
    split
    · cases c.get j with
      | none => rfl
      | some b => exact congrArg some (L.next_setPrev p b)
    · rfl
  · funext j
    rw [bodyAt, bodyAt, Cells.get_modify]
    split
    · cases c.get j with
      | none => rfl
      | some b => exact congrArg some (L.body_setPrev p b)
    · rfl
  · exact Cells.get_modify_of_ne c _ fun h => hj (h ▸ hS)

/-- `i->next = n`. -/
theorem write_setNext (hi : (c.get i).isSome) (n : Option ℕ) (hS : i ∈ S) :
    ∃ c', c.write i (L.setNext n) = some c' ∧ L.prevAt c' = L.prevAt c ∧
      L.nextAt c' = Function.update (L.nextAt c) i (some n) ∧ L.Relinks c c' S := by
  obtain ⟨a, ha⟩ := Option.isSome_iff_exists.mp hi
  refine ⟨c.modify i (L.setNext n), by rw [Cells.write, ha]; rfl, ?_, ?_, rfl, ?_, fun j hj => ?_⟩
  · funext j
    rw [prevAt, prevAt, Cells.get_modify]
    split
    · cases c.get j with
      | none => rfl
      | some b => exact congrArg some (L.prev_setNext n b)
    · rfl
  · funext j
    by_cases hj : j = i
    · subst hj
      rw [Function.update_self, nextAt, Cells.get_modify_self, ha]
      exact congrArg some (L.next_setNext n a)
    · rw [Function.update_of_ne hj, nextAt, Cells.get_modify_of_ne c _ hj, nextAt]
  · funext j
    rw [bodyAt, bodyAt, Cells.get_modify]
    split
    · cases c.get j with
      | none => rfl
      | some b => exact congrArg some (L.body_setNext n b)
    · rfl
  · exact Cells.get_modify_of_ne c _ fun h => hj (h ▸ hS)

/-- `if (o) o->prev = p`. -/
theorem writeIf_setPrev {o : Option ℕ} (ho : ∀ i ∈ o, (c.get i).isSome ∧ i ∈ S) (p : Option ℕ) :
    ∃ c', c.writeIf o (L.setPrev p) = some c' ∧
      L.prevAt c' = o.elim (L.prevAt c) (fun i => Function.update (L.prevAt c) i (some p)) ∧
      L.nextAt c' = L.nextAt c ∧ L.Relinks c c' S := by
  cases o with
  | none => exact ⟨c, rfl, rfl, rfl, .refl c⟩
  | some i => exact L.write_setPrev (ho i rfl).1 p (ho i rfl).2

/-- `if (o) o->next = n`. -/
theorem writeIf_setNext {o : Option ℕ} (ho : ∀ i ∈ o, (c.get i).isSome ∧ i ∈ S) (n : Option ℕ) :
    ∃ c', c.writeIf o (L.setNext n) = some c' ∧ L.prevAt c' = L.prevAt c ∧
      L.nextAt c' = o.elim (L.nextAt c) (fun i => Function.update (L.nextAt c) i (some n)) ∧
      L.Relinks c c' S := by
  cases o with
  | none => exact ⟨c, rfl, rfl, rfl, .refl c⟩
  | some i => exact L.write_setNext (ho i rfl).1 n (ho i rfl).2

/-- What is the same with every pair of pointers. -/
theorem Relinks.map_eq {γ : Type} (h : L.Relinks c c' S) {f : ν → γ} {g : β → γ}
    (hf : ∀ a, f a = g (L.body a)) (i : ℕ) : (c'.get i).map f = (c.get i).map f := by
  have hbody := congrFun h.body i
  rw [bodyAt, bodyAt] at hbody
  have hfg : f = g ∘ L.body := funext hf
  rw [hfg, ← Option.map_map, ← Option.map_map, hbody]

end Hook

/-! ### Lists that end in NULL -/

/-- The nodes `l` are a list: `head` points to the first, and both ends are NULL. -/
structure Chain {ν β : Type} (L : Hook ν β) (c : Cells ν) (head : Option ℕ) (l : List ℕ) : Prop where
  head_eq : head = l.head?
  nodup : l.Nodup
  linked : Linked (L.prevAt c) (L.nextAt c) none l none

namespace Chain
variable {ν β : Type} {L : Hook ν β} {c c' : Cells ν} {head : Option ℕ} {l : List ℕ} {i : ℕ}

theorem nil (c : Cells ν) : Chain L c none [] := ⟨rfl, List.nodup_nil, trivial⟩

theorem live (h : Chain L c head l) (hi : i ∈ l) : (c.get i).isSome := by
  have hprev := (h.linked.live hi).1
  rwa [Hook.prevAt, Option.isSome_map] at hprev

/-- The pointers of its nodes are all that a list depends on. -/
theorem congr (h : Chain L c head l) (hP : ∀ i ∈ l, L.prevAt c' i = L.prevAt c i)
    (hN : ∀ i ∈ l, L.nextAt c' i = L.nextAt c i) : Chain L c' head l :=
  ⟨h.head_eq, h.nodup, h.linked.congr hP hN⟩

theorem congr_get (h : Chain L c head l) (hl : ∀ i ∈ l, c'.get i = c.get i) : Chain L c' head l :=
  h.congr (fun i hi => by rw [Hook.prevAt, hl i hi, Hook.prevAt])
    fun i hi => by rw [Hook.nextAt, hl i hi, Hook.nextAt]

theorem length_le (h : Chain L c head l) : l.length ≤ c.next :=
  Cells.length_le h.nodup fun _ => h.live

end Chain

end PubSub.Lib
