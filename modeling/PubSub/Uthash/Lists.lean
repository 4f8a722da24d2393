import PubSub.Uthash.Table

/-! The two kinds of lists of a hash table: what the macros do to one of them, and that
they do not touch the other. -/

namespace PubSub.Uthash

open Lib

variable {β : Type} {c c' : Cells (Elem β)} {head : Option ℕ} {l : List ℕ} {i : ℕ} {S : List ℕ}

/-- What the pointers of neither list say about an element. -/
def Elem.data (e : Elem β) : β × Option ℕ × Str × UInt32 × UInt32 :=
  (e.val, e.hh.tbl, e.hh.key, e.hh.keylen, e.hh.hashv)

/-- The data of the element at an address. -/
def dataAt (c : Cells (Elem β)) (i : ℕ) : Option (β × Option ℕ × Str × UInt32 × UInt32) :=
  (c.get i).map Elem.data

theorem chain_relinks_app (h : chain.Relinks c c' S) :
    app.prevAt c' = app.prevAt c ∧ app.nextAt c' = app.nextAt c ∧ dataAt c' = dataAt c :=
  ⟨funext (h.map_eq (g := fun e => e.hh.prev) fun _ => rfl),
    funext (h.map_eq (g := fun e => e.hh.next) fun _ => rfl),
    funext (h.map_eq (g := Elem.data) fun _ => rfl)⟩

theorem app_relinks_chain (h : app.Relinks c c' S) :
    chain.prevAt c' = chain.prevAt c ∧ chain.nextAt c' = chain.nextAt c ∧ dataAt c' = dataAt c :=
  ⟨funext (h.map_eq (g := fun e => e.hh.hhPrev) fun _ => rfl),
    funext (h.map_eq (g := fun e => e.hh.hhNext) fun _ => rfl),
    funext (h.map_eq (g := Elem.data) fun _ => rfl)⟩

theorem isSome_dataAt (c : Cells (Elem β)) (i : ℕ) : (dataAt c i).isSome = (c.get i).isSome :=
  Option.isSome_map

/-- What the data decides. -/
theorem map_of_dataAt {γ : Type} {f : Elem β → γ} {g : β × Option ℕ × Str × UInt32 × UInt32 → γ}
    (hf : ∀ e, f e = g e.data) (h : dataAt c' i = dataAt c i) :
    (c'.get i).map f = (c.get i).map f := by
  have hfg : f = g ∘ Elem.data := funext hf
  rw [dataAt, dataAt] at h
  rw [hfg, ← Option.map_map, ← Option.map_map, h]

/-- An element becomes the first of a bucket. -/
theorem linkFirst_chain (h : Chain chain c head l) (hi : i ∉ l) (hlive : (c.get i).isSome) :
    ∃ c', linkFirst c head i = some c' ∧ Chain chain c' (some i) (i :: l) ∧
      chain.Relinks c c' (i :: l) := by
  obtain rfl : head = l.head? := h.head_eq
  have hin : i ∈ i :: l := List.mem_cons_self
  obtain ⟨c₁, h₁, hP₁, hN₁, hr₁⟩ := chain.write_setNext hlive l.head? hin
  obtain ⟨c₂, h₂, hP₂, hN₂, hr₂⟩ := chain.write_setPrev (i := i) (c := c₁)
    (by rw [hr₁.live]; exact hlive) none hin
  have hr₂ := hr₁.trans hr₂
  obtain ⟨c₃, h₃, hP₃, hN₃, hr₃⟩ := chain.writeIf_setPrev (c := c₂) (S := i :: l) (o := l.head?)
    (fun x hx => by
      have hx : x ∈ l := List.mem_of_head? hx
      exact ⟨by rw [hr₂.live]; exact h.live hx, List.mem_cons_of_mem i hx⟩) (some i)
  refine ⟨c₃, by simp [linkFirst, h₁, h₂, h₃], ⟨rfl, List.nodup_cons.mpr ⟨hi, h.nodup⟩, ?_⟩,
    hr₂.trans hr₃⟩
  rw [hP₃, hN₃, hP₂, hN₂, hP₁, hN₁]
  exact h.linked.prepend h.nodup hi

/-- An element is taken out of a list. -/
theorem unlink_chain {L : Hook (Elem β) (Elem β)} {a b : List ℕ}
    (h : Chain L c head (a ++ i :: b)) :
    ∃ c', unlink L c i = some c' ∧ Chain L c' (a ++ b).head? (a ++ b) ∧
      L.Relinks c c' (a ++ b) ∧ L.prevAt c i = some a.getLast? ∧ L.nextAt c i = some b.head? := by
  obtain ⟨hprev, hnext⟩ := h.linked.at_middle
  rw [Option.or_none] at hprev hnext
  have hd := List.nodup_append.mp h.nodup
  have hnodup : (a ++ b).Nodup := (List.nodup_cons.mp (List.nodup_middle.mp h.nodup)).2
  have hlinked := h.linked.remove h.nodup
  rw [Option.or_none, Option.or_none] at hlinked
  obtain ⟨c₁, h₁, hP₁, hN₁, hr₁⟩ := L.writeIf_setNext (c := c) (S := a ++ b) (o := a.getLast?)
    (fun x hx => by
      have hx : x ∈ a := List.mem_of_getLast? hx
      exact ⟨h.live (List.mem_append_left _ hx), List.mem_append_left _ hx⟩) b.head?
  have hprev₁ : L.prevAt c₁ i = some a.getLast? := by rw [hP₁, hprev]
  have hnext₁ : L.nextAt c₁ i = some b.head? := by
    rw [hN₁, ← hnext]
    rcases List.eq_nil_or_concat' a with rfl | ⟨a, p, rfl⟩
    · rfl
    · rw [List.getLast?_concat]
      exact Function.update_of_ne (fun heq => hd.2.2 p (by simp) i List.mem_cons_self heq.symm) _ _
  obtain ⟨c₂, h₂, hP₂, hN₂, hr₂⟩ := L.writeIf_setPrev (c := c₁) (S := a ++ b) (o := b.head?)
    (fun x hx => by
      have hx : x ∈ b := List.mem_of_head? hx
      exact ⟨by rw [hr₁.live]; exact h.live (List.mem_append_right _ (List.mem_cons_of_mem i hx)),
        List.mem_append_right _ hx⟩) a.getLast?
  refine ⟨c₂, by simp [unlink, hnext, hprev, h₁, hprev₁, hnext₁, h₂], ⟨rfl, hnodup, ?_⟩,
    hr₁.trans hr₂, hprev, hnext⟩
  rw [hP₂, hN₂, hP₁, hN₁]
  exact hlinked

/-- An element becomes the last of all. -/
theorem append_app {t add : ℕ} (h : Chain app c head (l ++ [t])) (hadd : add ∉ l ++ [t])
    (hlive : (c.get add).isSome) : ∃ c₁ c₂ c₃, c.write add (app.setNext none) = some c₁ ∧
      c₁.write add (app.setPrev (some t)) = some c₂ ∧
      c₂.write t (app.setNext (some add)) = some c₃ ∧ app.Relinks c c₁ (l ++ [t] ++ [add]) ∧
      app.Relinks c c₃ (l ++ [t] ++ [add]) ∧ Chain app c₃ head (l ++ [t] ++ [add]) := by
  have hin : add ∈ l ++ [t] ++ [add] := by simp
  have ht : t ∉ l := fun hmem => (List.nodup_append.mp h.nodup).2.2 t hmem t (by simp) rfl
  have hne : add ≠ t := fun heq => hadd (by rw [heq]; simp)
  have hnodup : (l ++ [t] ++ [add]).Nodup := by
    rw [List.nodup_append]
    exact ⟨h.nodup, List.nodup_singleton add,
      by simpa only [List.mem_singleton, forall_eq] using fun i hi => ne_of_mem_of_not_mem hi hadd⟩
  obtain ⟨c₁, h₁, hP₁, hN₁, hr₁⟩ := app.write_setNext hlive none hin
  obtain ⟨c₂, h₂, hP₂, hN₂, hr₂⟩ := app.write_setPrev (i := add) (c := c₁)
    (by rw [hr₁.live]; exact hlive) (some t) hin
  have hr₂ := hr₁.trans hr₂
  obtain ⟨c₃, h₃, hP₃, hN₃, hr₃⟩ := app.write_setNext (i := t) (c := c₂) (S := l ++ [t] ++ [add])
    (by rw [hr₂.live]; exact h.live (by simp)) (some add) (by simp)
  refine ⟨c₁, c₂, c₃, h₁, h₂, h₃, hr₁, hr₂.trans hr₃, ?_, hnodup, ?_⟩
  · rw [h.head_eq]
    simp
  · rw [hP₃, hN₃, hP₂, hN₂, hP₁, hN₁, linked_append, linked_singleton, List.getLast?_concat]
    refine ⟨?_, Function.update_self _ _ _, ?_⟩
    · exact ((h.linked.update_prev hadd _).update_next hadd _).set_last ht
    · rw [Function.update_of_ne hne, Function.update_self]

end PubSub.Uthash
