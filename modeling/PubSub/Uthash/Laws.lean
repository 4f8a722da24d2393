import PubSub.Uthash.Expand

/-! What the macros do to a table that is well formed: the elements are a list, in the
order of their insertion, and there is a table if there are any. -/

namespace PubSub.Uthash

open Lib

variable {β : Type} {c c' : Cells (Elem β)} {T : UtHashTable} {chains : ℕ → List ℕ}
  {l a b : List ℕ} {i k : ℕ}

/-! ### Buckets -/

theorem hh_congr {γ : Type} (f : UtHashHandle → γ)
    (h : (c'.get i).map Elem.hh = (c.get i).map Elem.hh) :
    (c'.get i).map (fun e => f e.hh) = (c.get i).map fun e => f e.hh := by
  simpa only [Option.map_map, Function.comp_def] using congrArg (Option.map f) h

namespace Filed

/-- Only the buckets and their number matter. -/
theorem congr {T' : UtHashTable} (h : Filed c T l chains)
    (hlog : T'.log2NumBuckets = T.log2NumBuckets) (hnum : T'.numBuckets = T.numBuckets)
    (hbuckets : T'.buckets = T.buckets) : Filed c T' l chains := by
  obtain ⟨h₁, h₂, h₃, h₄, h₅, h₆⟩ := h
  constructor
  · rwa [hlog]
  · rwa [hnum, hlog]
  · rwa [hbuckets, hnum]
  · rwa [hbuckets]
  · exact h₅
  · rwa [hnum]

/-- Nor do the other parts of the elements. -/
theorem congr_elems (h : Filed c T l chains)
    (hprev : ∀ i ∈ l, chain.prevAt c' i = chain.prevAt c i)
    (hnext : ∀ i ∈ l, chain.nextAt c' i = chain.nextAt c i)
    (hashv : ∀ i ∈ l, (c'.get i).map (fun e => e.hh.hashv) = (c.get i).map fun e => e.hh.hashv) :
    Filed c' T l chains := by
  have hmem : ∀ d i, i ∈ chains d → i ∈ l := fun d i hi => ((h.mem d i).mp hi).1
  refine ⟨h.log2, h.num, h.length, ⟨fun d D hD => ?_, h.buckets.count⟩, fun i hi => ?_,
    fun d i => ?_⟩
  · exact (h.buckets.list d D hD).congr (fun i hi => hprev i (hmem d i hi))
      fun i hi => hnext i (hmem d i hi)
  · have hlive := congrArg Option.isSome (hprev i hi)
    rw [Hook.prevAt, Hook.prevAt, Option.isSome_map, Option.isSome_map] at hlive
    rw [hlive]
    exact h.live i hi
  · rw [h.mem]
    refine and_congr_right fun hi => ?_
    have hi := congrArg (Option.map fun v : UInt32 => v.toNat % T.numBuckets.toNat) (hashv i hi)
    rw [Option.map_map, Option.map_map] at hi
    rw [bktAt, bktAt]
    exact iff_of_eq (congrArg (· = some d) hi.symm)

/-- The bucket of an element. -/
theorem bkt_eq {e : Elem β} (h : Filed c T l chains) (he : c.get i = some e) :
    bktAt c T.numBuckets.toNat i = some (hashToBkt e.hh.hashv T.numBuckets).toNat := by
  rw [bktAt, he, Option.map_some, hashToBkt_toNat h.num, h.num]

/-- An element more. -/
theorem add {e : Elem β} (h : Filed c T l chains) (hi : i ∉ l) (he : c.get i = some e)
    (hroom : T.log2NumBuckets.toNat < 31) :
    ∃ c' T' chains', hashAddToBkt c T (hashToBkt e.hh.hashv T.numBuckets) i = some (c', T') ∧
      Filed c' T' (l ++ [i]) chains' ∧ chain.Relinks c c' (l ++ [i]) ∧ T'.tail = T.tail ∧
      T'.numItems = T.numItems := by
  have hbkt := h.bkt_eq he
  generalize hashToBkt e.hh.hashv T.numBuckets = bkt at hbkt ⊢
  have hlt : bkt.toNat < T.buckets.length := h.length.symm ▸ bktAt_lt h.pos hbkt
  obtain ⟨B, hB⟩ : ∃ B, T.buckets[bkt.toNat]? = some B := ⟨_, List.getElem?_eq_getElem hlt⟩
  have hnew : i ∉ chains bkt.toNat := fun hmem => hi ((h.mem _ i).mp hmem).1
  obtain ⟨c', hlink, hchain, hr⟩ := linkFirst_chain (h.buckets.list _ _ hB) hnew (by rw [he]; rfl)
  have hsub : i :: chains bkt.toNat ⊆ l ++ [i] := by
    intro j hj
    rcases List.mem_cons.mp hj with rfl | hj
    · simp
    · exact List.mem_append_left _ ((h.mem _ j).mp hj).1
  have hout : ∀ d, d ≠ bkt.toNat → ∀ j ∈ chains d, j ∉ i :: chains bkt.toNat := by
    intro d hd j hj hmem
    rcases List.mem_cons.mp hmem with rfl | hmem
    · exact hi ((h.mem d j).mp hj).1
    · exact hd (h.apart hj hmem)
  let B' : UtHashBucket := { B with hhHead := some i, count := B.count + 1 }
  let T' : UtHashTable := { T with buckets := T.buckets.set bkt.toNat B' }
  have hcount : B'.count = UInt32.ofNat (i :: chains bkt.toNat).length := by
    rw [List.length_cons, UInt32.ofNat_add, ← h.buckets.count _ _ hB]
    rfl
  have hbuckets := h.buckets.set hr hchain hcount hout (B := B')
  have hr := hr.mono hsub
  have hfiled : Filed c' T' (l ++ [i])
      (Function.update chains bkt.toNat (i :: chains bkt.toNat)) := by
    refine ⟨h.log2, h.num, List.length_set.trans h.length, hbuckets, fun j hj => ?_,
      fun d j => ?_⟩
    · rw [hr.live]
      rcases List.mem_append.mp hj with hj | hj
      · exact h.live j hj
      · rw [List.mem_singleton.mp hj, he]
        rfl
    · show _ ↔ _ ∧ bktAt c' T.numBuckets.toNat j = some d
      rw [bktAt_congr (chain_relinks_app hr).2.2, List.mem_append, List.mem_singleton]
      by_cases hd : d = bkt.toNat
      · subst hd
        rw [Function.update_self, List.mem_cons, h.mem]
        constructor
        · rintro (rfl | ⟨hj, hbkt'⟩)
          · exact ⟨.inr rfl, hbkt⟩
          · exact ⟨.inl hj, hbkt'⟩
        · rintro ⟨hj | rfl, hbkt'⟩
          · exact .inr ⟨hj, hbkt'⟩
          · exact .inl rfl
      · rw [Function.update_of_ne hd, h.mem]
        constructor
        · exact fun hj => ⟨.inl hj.1, hj.2⟩
        · rintro ⟨hj | rfl, hbkt'⟩
          · exact ⟨hj, hbkt'⟩
          · exact absurd (Option.some.inj (hbkt'.symm.trans hbkt)) hd
  by_cases hfull : (B'.full && T.noexpand = 0) = true
  · obtain ⟨c₂, T₂, chains₂, hexp, hfiled₂, hr₂, htail, hitems⟩ := hfiled.expand hroom
    refine ⟨c₂, T₂, chains₂, ?_, hfiled₂, hr.trans hr₂, htail, hitems⟩
    simp only [hashAddToBkt, hB, Option.bind_eq_bind, Option.bind_some, hlink]
    rw [if_pos hfull]
    exact hexp
  · refine ⟨c', T', _, ?_, hfiled, hr, rfl, rfl⟩
    simp only [hashAddToBkt, hB, Option.bind_eq_bind, Option.bind_some, hlink]
    rw [if_neg hfull]

/-- An element less. -/
theorem del {e : Elem β} {n : UInt32} (h : Filed c T (a ++ i :: b) chains)
    (hnodup : (a ++ i :: b).Nodup) (he : c.get i = some e) :
    ∃ B c' B' chains', T.buckets[(hashToBkt e.hh.hashv T.numBuckets).toNat]? = some B ∧
      hashDelInBkt c B i = some (c', B') ∧
      Filed c' { T with
        buckets := T.buckets.set (hashToBkt e.hh.hashv T.numBuckets).toNat B', numItems := n }
        (a ++ b) chains' ∧ chain.Relinks c c' (a ++ b) := by
  have hin : i ∈ a ++ i :: b := by simp
  have hnot : i ∉ a ++ b := (List.nodup_cons.mp (List.nodup_middle.mp hnodup)).1
  have hmem : ∀ j, j ∈ a ++ b ↔ j ∈ a ++ i :: b ∧ j ≠ i := by
    intro j
    simp only [List.mem_append, List.mem_cons] at hnot ⊢
    grind
  have hbkt := h.bkt_eq he
  generalize hashToBkt e.hh.hashv T.numBuckets = bkt at hbkt ⊢
  have hlt : bkt.toNat < T.buckets.length := h.length.symm ▸ bktAt_lt h.pos hbkt
  obtain ⟨B, hB⟩ : ∃ B, T.buckets[bkt.toNat]? = some B := ⟨_, List.getElem?_eq_getElem hlt⟩
  obtain ⟨p, q, hpq⟩ := List.append_of_mem ((h.mem bkt.toNat i).mpr ⟨hin, hbkt⟩)
  have hlist := h.buckets.list _ _ hB
  have hcount := h.buckets.count _ _ hB
  rw [hpq] at hlist hcount
  obtain ⟨c', hunlink, hchain, hr, -, hnext⟩ := unlink_chain hlist
  have hhead : (if B.hhHead = some i then q.head? else B.hhHead) = (p ++ q).head? := by
    have hi : i ∉ p := fun hmem => (List.nodup_append.mp hlist.nodup).2.2 i hmem i (by simp) rfl
    rw [hlist.head_eq]
    cases p with
    | nil => simp
    | cons j p => simp [show j ≠ i by rintro rfl; simp at hi]
  let B' : UtHashBucket := { B with count := B.count - 1, hhHead := (p ++ q).head? }
  have hcount' : B'.count = UInt32.ofNat (p ++ q).length := by
    show B.count - 1 = _
    rw [hcount]
    simp [UInt32.ofNat_add, ← UInt32.add_assoc]
  have hsub : ∀ j ∈ p ++ q, j ∈ chains bkt.toNat ∧ j ≠ i := by
    intro j hj
    have hni : i ∉ p ++ q := (List.nodup_cons.mp (List.nodup_middle.mp hlist.nodup)).1
    refine ⟨?_, ne_of_mem_of_not_mem hj hni⟩
    rw [hpq]
    simp only [List.mem_append, List.mem_cons] at hj ⊢
    tauto
  have hbuckets := h.buckets.set (B := B') hr hchain hcount'
    fun d hd j hj hmem => hd (h.apart hj (hsub j hmem).1)
  have hr := hr.mono (T := a ++ b) fun j hj =>
    (hmem j).mpr ⟨((h.mem _ j).mp (hsub j hj).1).1, (hsub j hj).2⟩
  refine ⟨B, c', B', _, hB, ?_, ⟨h.log2, h.num, List.length_set.trans h.length, hbuckets,
    fun j hj => ?_, fun d j => ?_⟩, hr⟩
  · simp only [hashDelInBkt, hnext, Option.bind_eq_bind, Option.bind_some, hunlink, hhead, B']
  · rw [hr.live]
    exact h.live j ((hmem j).mp hj).1
  · show _ ↔ _ ∧ bktAt c' T.numBuckets.toNat j = some d
    rw [bktAt_congr (chain_relinks_app hr).2.2, hmem]
    by_cases hd : d = bkt.toNat
    · subst hd
      rw [Function.update_self]
      constructor
      · intro hj
        have hj' := (h.mem _ j).mp (hsub j hj).1
        exact ⟨⟨hj'.1, (hsub j hj).2⟩, hj'.2⟩
      · rintro ⟨⟨hj, hne⟩, hbkt'⟩
        have hj' := (h.mem _ j).mpr ⟨hj, hbkt'⟩
        rw [hpq] at hj'
        simp only [List.mem_append, List.mem_cons] at hj' ⊢
        tauto
    · rw [Function.update_of_ne hd, h.mem]
      constructor
      · rintro ⟨hj, hbkt'⟩
        refine ⟨⟨hj, ?_⟩, hbkt'⟩
        rintro rfl
        exact hd (Option.some.inj (hbkt'.symm.trans hbkt))
      · exact fun hj => ⟨hj.1.1, hj.2⟩

end Filed

/-! ### A table in use -/

variable {hash : Str → UInt32} {s : UtHash β} {t : ℕ} {key : Str}

/-- The handle belongs to the table `t` and agrees with its key. -/
def Keyed (hash : Str → UInt32) (t : ℕ) (hh : UtHashHandle) : Prop :=
  hh.tbl = some t ∧ hh.keylen = keylen hh.key ∧ hh.hashv = hash hh.key

/-- The elements `l` have the handles of the table `t` and are linked. -/
structure Listed (hash : Str → UInt32) (s : UtHash β) (t : ℕ) (T : UtHashTable) (l : List ℕ) :
    Prop where
  table : s.tables.get t = some T
  only : ∀ u, u ≠ t → s.tables.get u = none
  list : Chain app s.elems s.head l
  keyed : ∀ i ∈ l, ∃ e, s.elems.get i = some e ∧ Keyed hash t e.hh
  tail : T.tail = l.getLast?

/-- The table `t` has the elements `l`. -/
structure Full (hash : Str → UInt32) (s : UtHash β) (t : ℕ) (T : UtHashTable) (l : List ℕ)
    (chains : ℕ → List ℕ) : Prop extends Listed hash s t T l where
  ne_nil : l ≠ []
  items : T.numItems = UInt32.ofNat l.length
  filed : Filed s.elems T l chains

/-- The elements of the hash are `l`. -/
def Rep (hash : Str → UInt32) (s : UtHash β) (l : List ℕ) : Prop :=
  (l = [] ∧ s.head = none ∧ ∀ t, s.tables.get t = none) ∨ ∃ t T chains, Full hash s t T l chains

theorem Rep.init : Rep hash (⟨.empty, .empty, none⟩ : UtHash β) [] := .inl ⟨rfl, rfl, fun _ => rfl⟩

theorem keyed_congr {e : Elem β} (h : dataAt c' = dataAt c) (he : c.get i = some e)
    (hk : Keyed hash t e.hh) : ∃ e', c'.get i = some e' ∧ Keyed hash t e'.hh := by
  have hi : (c'.get i).map Elem.data = some e.data := by
    rw [← dataAt, congrFun h i, dataAt, he, Option.map_some]
  obtain ⟨e', he', hd⟩ := Option.map_eq_some_iff.mp hi
  simp only [Elem.data, Prod.mk.injEq] at hd
  refine ⟨e', he', ?_⟩
  rwa [Keyed, hd.2.1, hd.2.2.1, hd.2.2.2.1, hd.2.2.2.2]

theorem Listed.tblOf (h : Listed hash s t T l) (hi : i ∈ l) : s.tblOf i = some (t, T) := by
  obtain ⟨e, he, hk⟩ := h.keyed i hi
  simp [UtHash.tblOf, he, hk.1, h.table]

theorem tables_write {tables : Cells UtHashTable} (h : tables.get t = some T)
    (only : ∀ u, u ≠ t → tables.get u = none) (f : UtHashTable → UtHashTable) :
    ∃ tables', tables.write t f = some tables' ∧ tables'.get t = some (f T) ∧
      ∀ u, u ≠ t → tables'.get u = none := by
  refine ⟨tables.modify t f, by rw [Cells.write, h]; rfl, ?_, fun u hu => ?_⟩
  · rw [Cells.get_modify_self, h]
    rfl
  · rw [Cells.get_modify_of_ne _ _ hu, only u hu]

/-- What is outside of the handles of the elements does not matter. -/
theorem Full.congr (h : Full hash s t T l chains)
    (hl : ∀ i ∈ l, (c.get i).map Elem.hh = (s.elems.get i).map Elem.hh) :
    Full hash { s with elems := c } t T l chains := by
  refine ⟨⟨h.table, h.only, h.list.congr (fun i hi => ?_) (fun i hi => ?_), fun i hi => ?_,
    h.tail⟩, h.ne_nil, h.items, h.filed.congr_elems (fun i hi => ?_) (fun i hi => ?_)
    fun i hi => ?_⟩
  · exact hh_congr UtHashHandle.prev (hl i hi)
  · exact hh_congr UtHashHandle.next (hl i hi)
  · obtain ⟨e, he, hk⟩ := h.keyed i hi
    obtain ⟨e', he', hhh⟩ := Option.map_eq_some_iff.mp ((hl i hi).trans (by rw [he]; rfl))
    exact ⟨e', he', hhh ▸ hk⟩
  · exact hh_congr UtHashHandle.hhPrev (hl i hi)
  · exact hh_congr UtHashHandle.hhNext (hl i hi)
  · exact hh_congr UtHashHandle.hashv (hl i hi)

namespace Rep

theorem chain (h : Rep hash s l) : Chain app s.elems s.head l := by
  obtain ⟨rfl, hhead, -⟩ | ⟨t, T, chains, h⟩ := h
  · exact hhead ▸ .nil s.elems
  · exact h.list

theorem congr (h : Rep hash s l)
    (hl : ∀ i ∈ l, (c.get i).map Elem.hh = (s.elems.get i).map Elem.hh) :
    Rep hash { s with elems := c } l := by
  obtain ⟨rfl, h⟩ | ⟨t, T, chains, h⟩ := h
  · exact .inl ⟨rfl, h⟩
  · exact .inr ⟨t, T, chains, h.congr hl⟩

end Rep

/-! ### Adding -/

/-- The element is in the list of all, and goes to its bucket. -/
theorem Listed.addToTable {e : Elem β} (h : Listed hash s t T (l ++ [i])) (hi : i ∉ l)
    (hitems : T.numItems = UInt32.ofNat l.length) (hf : Filed s.elems T l chains)
    (he : s.elems.get i = some e) (hroom : T.log2NumBuckets.toNat < 31) :
    ∃ s', hashAddToTable s e.hh.hashv i = some s' ∧ Rep hash s' (l ++ [i]) ∧
      dataAt s'.elems = dataAt s.elems ∧ s'.elems.next = s.elems.next := by
  obtain ⟨x, hx⟩ : ∃ x, s.head = some x := by
    rw [h.list.head_eq, ← Option.isSome_iff_exists, List.isSome_head?]
    simp
  have hxl : x ∈ l ++ [i] := List.mem_of_head? (h.list.head_eq ▸ hx)
  have hf : Filed s.elems { T with numItems := T.numItems + 1 } l chains := hf.congr rfl rfl rfl
  obtain ⟨c', T', chains', hadd, hf', hr, htail, hitems'⟩ := hf.add hi he hroom
  obtain ⟨hprev, hnext, hdata⟩ := chain_relinks_app hr
  obtain ⟨tables, hw, ht, hothers⟩ := tables_write h.table h.only fun _ => T'
  refine ⟨{ s with elems := c', tables := tables }, ?_, .inr ⟨t, T', chains',
    ⟨ht, hothers, ?_, fun j hj => ?_, htail.trans h.tail⟩, by simp, ?_, hf'⟩, hdata, hr.next⟩
  · simp only [hashAddToTable, hx, h.tblOf hxl, Option.bind_eq_bind, Option.bind_some, hadd, hw]
  · exact h.list.congr (fun j _ => congrFun hprev j) fun j _ => congrFun hnext j
  · obtain ⟨e', he', hk⟩ := h.keyed j hj
    exact keyed_congr hdata he' hk
  · rw [hitems', List.length_append, List.length_singleton, UInt32.ofNat_add, ← hitems]
    rfl

/-- What an addition leaves of the program's data. -/
structure Added (c c' : Cells (Elem β)) (i : ℕ) (key : Str) (e : Elem β) : Prop where
  next : c'.next = c.next
  other : ∀ j, j ≠ i → dataAt c' j = dataAt c j
  new : ∃ e', c'.get i = some e' ∧ e'.val = e.val ∧ e'.hh.key = key

theorem Added.of_data {e e' : Elem β} {c'' : Cells (Elem β)} (hnext : c'.next = c.next)
    (hother : ∀ j, j ≠ i → c'.get j = c.get j) (he' : c'.get i = some e') (hval : e'.val = e.val)
    (hkey : e'.hh.key = key) (hdata : dataAt c'' = dataAt c') (hn : c''.next = c'.next) :
    Added c c'' i key e := by
  refine ⟨hn.trans hnext, fun j hj => ?_, ?_⟩
  · rw [hdata, dataAt, hother j hj, dataAt]
  · have hi : (c''.get i).map Elem.data = some e'.data := by
      rw [← dataAt, hdata, dataAt, he', Option.map_some]
    obtain ⟨e'', he'', hd⟩ := Option.map_eq_some_iff.mp hi
    simp only [Elem.data, Prod.mk.injEq] at hd
    exact ⟨e'', he'', hd.1.trans hval, hd.2.2.1.trans hkey⟩

theorem Filed.new (c : Cells (Elem β)) (i : ℕ) : Filed c (newTable i) [] fun _ => [] := by
  refine ⟨show HASH_INITIAL_NUM_BUCKETS_LOG2.toNat < 32 by decide, rfl, List.length_replicate,
    ⟨fun d D hD => ?_, fun d D hD => ?_⟩, nofun, fun d j => by simp⟩
  all_goals
    rw [newTable, List.getElem?_replicate] at hD
    split at hD
    · cases hD
      first
        | exact .nil c
        | rfl
    · cases hD

/-- The first element, with a table. -/
theorem hashAddKeyptr_first {e : Elem β} (hhead : s.head = none)
    (htables : ∀ t, s.tables.get t = none) (he : s.elems.get i = some e) :
    ∃ s', hashAddKeyptr hash s key i = some s' ∧ Rep hash s' [i] ∧
      Added s.elems s'.elems i key e := by
  let e₄ : Elem β := { e with hh := { e.hh with
    tbl := some s.tables.next, prev := none, next := none, key := key, keylen := keylen key,
    hashv := hash key } }
  obtain ⟨c₄, hc₄⟩ : ∃ c₄ : Cells (Elem β), c₄ = (((s.elems.modify i (Elem.setKey hash key)).modify
    i (app.setNext none)).modify i (app.setPrev none)).modify i fun e =>
    { e with hh := { e.hh with tbl := some s.tables.next } } := ⟨_, rfl⟩
  have hget : c₄.get i = some e₄ := by
    simp only [hc₄, Cells.get_modify_self, he, Option.map_some]
    rfl
  have hother : ∀ j, j ≠ i → c₄.get j = s.elems.get j := by
    intro j hj
    simp only [hc₄, Cells.get_modify_of_ne _ _ hj]
  let s₄ : UtHash β := ⟨c₄, s.tables.alloc (newTable i), some i⟩
  have hs₄ : hashAddKeyptr hash s key i = hashAddToTable s₄ e₄.hh.hashv i := by
    simp [hashAddKeyptr, hhead, Cells.write, he, hashMakeTable, setTbl, s₄, hc₄, e₄]
  have hlisted : Listed hash s₄ s.tables.next (newTable i) ([] ++ [i]) := by
    refine ⟨Cells.get_alloc_self _ _, fun u hu => ?_, ⟨rfl, List.nodup_singleton i, ?_⟩,
      fun j hj => ?_, rfl⟩
    · rw [Cells.get_alloc, if_neg hu, htables]
    · show Linked _ _ none [i] none
      rw [linked_singleton, Hook.prevAt, Hook.nextAt, hget]
      exact ⟨rfl, rfl⟩
    · obtain rfl := List.mem_singleton.mp hj
      exact ⟨e₄, hget, rfl, rfl, rfl⟩
  obtain ⟨s', hadd, hrep, hdata, hnext⟩ := hlisted.addToTable List.not_mem_nil rfl (.new _ i) hget
    (show HASH_INITIAL_NUM_BUCKETS_LOG2.toNat < 31 by decide)
  exact ⟨s', hs₄.trans hadd, hrep, .of_data (by simp [hc₄]) hother hget rfl rfl hdata hnext⟩

/-- An element after the others. -/
theorem Full.add {e : Elem β} (h : Full hash s t T l chains) (hi : i ∉ l)
    (he : s.elems.get i = some e) (hroom : T.log2NumBuckets.toNat < 31) :
    ∃ s', hashAddKeyptr hash s key i = some s' ∧ Rep hash s' (l ++ [i]) ∧
      Added s.elems s'.elems i key e := by
  obtain ⟨l, last, rfl⟩ := List.eq_nil_or_concat' l |>.resolve_left h.ne_nil
  obtain ⟨x, hx⟩ : ∃ x, s.head = some x := by
    rw [h.list.head_eq, ← Option.isSome_iff_exists, List.isSome_head?]
    simp
  have hxl : x ∈ l ++ [last] := List.mem_of_head? (h.list.head_eq ▸ hx)
  have hxi : x ≠ i := ne_of_mem_of_not_mem hxl hi
  obtain ⟨ex, hex, hkx⟩ := h.keyed x hxl
  -- the handle of the element, which is in no list yet
  let e₂ : Elem β := { e with hh := { e.hh with
    tbl := some t, key := key, keylen := keylen key, hashv := hash key } }
  obtain ⟨c₂, hc₂⟩ : ∃ c₂ : Cells (Elem β), c₂ = (s.elems.modify i (Elem.setKey hash key)).modify i
    fun e => { e with hh := { e.hh with tbl := some t } } := ⟨_, rfl⟩
  have hget : c₂.get i = some e₂ := by
    simp only [hc₂, Cells.get_modify_self, he, Option.map_some]
    rfl
  have hother : ∀ j, j ≠ i → c₂.get j = s.elems.get j := by
    intro j hj
    simp only [hc₂, Cells.get_modify_of_ne _ _ hj]
  have h₂ := h.congr (c := c₂) fun j hj => by rw [hother j (ne_of_mem_of_not_mem hj hi)]
  obtain ⟨c₃, c₄, c₅, hw₃, hw₄, hw₅, -, hr, hlist⟩ := append_app h₂.list hi (by rw [hget]; rfl)
  obtain ⟨hprev, hnext, hdata⟩ := app_relinks_chain hr
  obtain ⟨tables, hw, ht, hothers⟩ := tables_write h.table h.only fun _ =>
    { T with tail := some i }
  let s₅ : UtHash β := ⟨c₅, tables, s.head⟩
  obtain ⟨e₅, he₅, hd₅⟩ : ∃ e₅, c₅.get i = some e₅ ∧ e₅.data = e₂.data := by
    apply Option.map_eq_some_iff.mp
    rw [← dataAt, hdata, dataAt, hget, Option.map_some]
  simp only [Elem.data, Prod.mk.injEq] at hd₅
  have hs₅ : hashAddKeyptr hash s key i = hashAddToTable s₅ e₅.hh.hashv i := by
    have hhead : (s.elems.modify i (Elem.setKey hash key)).get x = some ex := by
      rw [Cells.get_modify_of_ne _ _ hxi, hex]
    have htail : T.tail = some last := by rw [h.tail, List.getLast?_concat]
    have htbl := h₂.tblOf hxl
    have hw₁ : s.elems.write i (Elem.setKey hash key) =
        some (s.elems.modify i (Elem.setKey hash key)) := by
      rw [Cells.write, he]
      rfl
    have hw₂ : setTbl (s.elems.modify i (Elem.setKey hash key)) i ex.hh.tbl = some c₂ := by
      simp [setTbl, Cells.write, he, hkx.1, hc₂]
    have happend : hashAppendList ⟨c₂, s.tables, s.head⟩ x i = some s₅ := by
      simp only [hashAppendList, hw₃, htbl, htail, hw₄, hw₅, hw, Option.bind_eq_bind,
        Option.bind_some, s₅]
    rw [hx] at happend
    simp only [hashAddKeyptr, hw₁, hx, hhead, hw₂, happend, Option.bind_eq_bind, Option.bind_some]
    exact congrArg (hashAddToTable s₅ · i) hd₅.2.2.2.2.symm
  have hlisted : Listed hash s₅ t { T with tail := some i } (l ++ [last] ++ [i]) := by
    refine ⟨ht, hothers, hlist, fun j hj => ?_, by rw [List.getLast?_concat]⟩
    rcases List.mem_append.mp hj with hj | hj
    · obtain ⟨e', he', hk⟩ := h₂.keyed j hj
      exact keyed_congr hdata he' hk
    · rw [List.mem_singleton.mp hj]
      exact keyed_congr hdata hget ⟨rfl, rfl, rfl⟩
  have hf : Filed c₅ { T with tail := some i } (l ++ [last]) chains := by
    refine (h₂.filed.congr_elems (fun j _ => congrFun hprev j) (fun j _ => congrFun hnext j)
      fun j _ => ?_).congr rfl rfl rfl
    exact hr.map_eq (g := fun e => e.hh.hashv) (fun _ => rfl) j
  obtain ⟨s', hadd, hrep, hdata', hnext'⟩ := hlisted.addToTable hi h.items hf he₅ hroom
  refine ⟨s', hs₅.trans hadd, hrep, .of_data (by simp [hc₂]) hother hget rfl rfl
    (hdata'.trans hdata) (hnext'.trans hr.next)⟩

/-- No table is as large as the type of its size allows. -/
def Room (s : UtHash β) : Prop := ∀ t T, s.tables.get t = some T → T.log2NumBuckets.toNat < 31

theorem Rep.add {e : Elem β} (h : Rep hash s l) (hroom : Room s) (hi : i ∉ l)
    (he : s.elems.get i = some e) (key : Str) :
    ∃ s', hashAddKeyptr hash s key i = some s' ∧ Rep hash s' (l ++ [i]) ∧
      Added s.elems s'.elems i key e := by
  obtain ⟨rfl, hhead, htables⟩ | ⟨t, T, chains, h⟩ := h
  · exact hashAddKeyptr_first hhead htables he
  · exact h.add hi he (hroom t T h.table)

/-! ### Deleting -/

/-- The last element, and the table. -/
theorem Full.delete_last (h : Full hash s t T [i] chains) :
    ∃ s', hashDelete s i = some s' ∧ Rep hash s' [] ∧ s'.elems = s.elems := by
  obtain ⟨hprev, hnext⟩ := linked_singleton.mp h.list.linked
  have hrelease : s.tables.release t = some (s.tables.free t) := by
    rw [Cells.release, h.table]
    rfl
  refine ⟨⟨s.elems, s.tables.free t, none⟩, ?_, .inl ⟨rfl, rfl, fun u => ?_⟩, rfl⟩
  · have hhead : s.head = some i := h.list.head_eq
    have htbl := h.tblOf (List.mem_singleton_self i)
    simp [hashDelete, hprev, hnext, hhead, htbl, hrelease]
  · rw [Cells.get_free]
    split
    · rfl
    · exact h.only u ‹_›

/-- The tail is moved off an element. -/
theorem Full.move_tail (h : Full hash s t T (a ++ i :: b) chains) (hne : a ++ b ≠ []) :
    ∃ tables, moveTail s.tables t T a.getLast? i = some tables ∧
      tables.get t = some { T with tail := (a ++ b).getLast? } ∧
      ∀ u, u ≠ t → tables.get u = none := by
  have htail := h.tail
  rcases List.eq_nil_or_concat' b with rfl | ⟨b, y, rfl⟩
  · obtain ⟨a, p, rfl⟩ := (List.eq_nil_or_concat' a).resolve_left (by simpa using hne)
    obtain ⟨tables, hw, hget, hothers⟩ := tables_write h.table h.only fun T =>
      { T with tail := some p }
    refine ⟨tables, ?_, by rw [List.append_nil, List.getLast?_concat, hget], hothers⟩
    rw [List.getLast?_concat] at htail ⊢
    rw [moveTail, if_pos htail]
    exact hw
  · have hlast : T.tail = some y := by
      rw [htail, List.append_cons, ← List.append_assoc, List.getLast?_concat]
    have hyi : y ≠ i := by
      have hnodup := (List.nodup_append.mp h.list.nodup).2.1
      rintro rfl
      simp at hnodup
    have hT : { T with tail := (a ++ (b ++ [y])).getLast? } = T := by
      rw [← List.append_assoc, List.getLast?_concat, ← hlast]
    refine ⟨s.tables, ?_, by rw [hT, h.table], h.only⟩
    rw [moveTail, if_neg]
    rw [hlast, Option.some.injEq]
    exact hyi

/-- One of several elements. -/
theorem Full.delete (h : Full hash s t T (a ++ i :: b) chains) (hne : a ++ b ≠ []) :
    ∃ s', hashDelete s i = some s' ∧ Rep hash s' (a ++ b) ∧ dataAt s'.elems = dataAt s.elems ∧
      s'.elems.next = s.elems.next := by
  obtain ⟨x, hx⟩ : ∃ x, s.head = some x := by
    rw [h.list.head_eq, ← Option.isSome_iff_exists, List.isSome_head?]
    simp
  obtain ⟨y, hy⟩ : ∃ y, (a ++ b).head? = some y := by
    rw [← Option.isSome_iff_exists, List.isSome_head?]
    exact hne
  have htbl := h.tblOf (List.mem_of_head? (h.list.head_eq ▸ hx))
  obtain ⟨c₁, hunlink, hlist, hr₁, hprev, hnext⟩ := unlink_chain h.list
  obtain ⟨hprev₁, hnext₁, hdata₁⟩ := app_relinks_chain hr₁
  obtain ⟨tables₁, hw₁, ht₁, hothers₁⟩ := h.move_tail hne
  have hcond : ¬ (a.getLast? = none ∧ b.head? = none) := by
    rintro ⟨ha, hb⟩
    exact hne (by rw [List.getLast?_eq_none_iff.mp ha, List.head?_eq_none_iff.mp hb]; rfl)
  have hhead : (if a.getLast? = none then b.head? else some x) = some y := by
    rw [← hy, ← hx, h.list.head_eq]
    cases a with
    | nil => rfl
    | cons z a => rw [if_neg (by simp)]; rfl
  have hlisted : Listed hash ⟨c₁, tables₁, some y⟩ t { T with tail := (a ++ b).getLast? }
      (a ++ b) := by
    refine ⟨ht₁, hothers₁, hy ▸ hlist, fun j hj => ?_, rfl⟩
    obtain ⟨e', he', hk⟩ := h.keyed j (by simp only [List.mem_append, List.mem_cons] at hj ⊢; tauto)
    exact keyed_congr hdata₁ he' hk
  have htbl₁ := hlisted.tblOf (List.mem_of_head? hy)
  obtain ⟨e, he, -⟩ := h.keyed i (by simp)
  have he₁ : c₁.get i = some e := by
    rw [hr₁.frame i (List.nodup_cons.mp (List.nodup_middle.mp h.list.nodup)).1, he]
  have hf : Filed c₁ { T with tail := (a ++ b).getLast? } (a ++ i :: b) chains :=
    (h.filed.congr_elems (fun j _ => congrFun hprev₁ j) (fun j _ => congrFun hnext₁ j)
      fun j _ => hr₁.map_eq (g := fun e => e.hh.hashv) (fun _ => rfl) j).congr rfl rfl rfl
  obtain ⟨B, c₂, B', chains', hB, hdel, hf₂, hr₂⟩ := hf.del (n := T.numItems - 1) h.list.nodup he₁
  obtain ⟨hprev₂, hnext₂, hdata₂⟩ := chain_relinks_app hr₂
  obtain ⟨tables₂, hw₂, ht₂, hothers₂⟩ := tables_write ht₁ hothers₁ fun T' =>
    { T' with
      buckets := T'.buckets.set (hashToBkt e.hh.hashv T.numBuckets).toNat B'
      numItems := T'.numItems - 1 }
  refine ⟨⟨c₂, tables₂, some y⟩, ?_, .inr ⟨t, _, chains', ⟨ht₂, hothers₂, ?_, fun j hj => ?_, rfl⟩,
    hne, ?_, hf₂⟩, hdata₂.trans hdata₁, hr₂.next.trans hr₁.next⟩
  · simp only [hashDelete, hprev, hnext, hx, htbl, if_neg hcond, hw₁, hunlink, hhead, htbl₁, he₁,
      hB, hdel, Option.bind_eq_bind, Option.bind_some]
    rw [hw₂]
    rfl
  · exact hlisted.list.congr (fun j _ => congrFun hprev₂ j) fun j _ => congrFun hnext₂ j
  · obtain ⟨e', he', hk⟩ := hlisted.keyed j hj
    exact keyed_congr hdata₂ he' hk
  · show T.numItems - 1 = _
    rw [h.items]
    simp [UInt32.ofNat_add, ← UInt32.add_assoc]

theorem Rep.delete (h : Rep hash s (a ++ i :: b)) :
    ∃ s', hashDelete s i = some s' ∧ Rep hash s' (a ++ b) ∧ dataAt s'.elems = dataAt s.elems ∧
      s'.elems.next = s.elems.next := by
  obtain ⟨hnil, -⟩ | ⟨t, T, chains, h⟩ := h
  · simp at hnil
  by_cases hne : a ++ b = []
  · obtain ⟨rfl, rfl⟩ := List.append_eq_nil_iff.mp hne
    obtain ⟨s', hdel, hrep, helems⟩ := Full.delete_last h
    exact ⟨s', hdel, hrep, by rw [helems], by rw [helems]⟩
  · exact h.delete hne

end PubSub.Uthash
