import PubSub.Uthash.Lists
import Mathlib.Data.List.Nodup

/-! The buckets of a table, and the expansion, which deals the items of every bucket out to
twice as many. -/

namespace PubSub.Uthash

open Lib

variable {β : Type} {c c' : Cells (Elem β)} {buckets : List UtHashBucket} {chains : ℕ → List ℕ}
  {l done : List ℕ} {i n : ℕ}

theorem hashToBkt_toNat {h n : UInt32} {k : ℕ} (hn : n.toNat = 2 ^ k) :
    (hashToBkt h n).toNat = h.toNat % 2 ^ k := by
  have hpos : (1 : UInt32) ≤ n := by
    rw [UInt32.le_iff_toNat_le, hn]
    exact Nat.one_le_two_pow
  rw [hashToBkt, UInt32.toNat_and, UInt32.toNat_sub_of_le _ _ hpos, hn]
  exact Nat.and_two_pow_sub_one_eq_mod _ _

/-- The bucket of an element, if there are `n` of them. -/
def bktAt (c : Cells (Elem β)) (n i : ℕ) : Option ℕ := (c.get i).map fun e => e.hh.hashv.toNat % n

theorem bktAt_congr (h : dataAt c' = dataAt c) : bktAt c' = bktAt c := by
  funext n i
  have hi : (c'.get i).map Elem.data = (c.get i).map Elem.data := congrFun h i
  have hmap : ∀ d : Cells (Elem β), bktAt d n i =
      ((d.get i).map Elem.data).map fun x => x.2.2.2.2.toNat % n := by
    intro d
    rw [bktAt, Option.map_map]
    rfl
  rw [hmap, hmap, hi]

/-- The lists of the buckets, with their counts. -/
structure Buckets (c : Cells (Elem β)) (buckets : List UtHashBucket) (chains : ℕ → List ℕ) :
    Prop where
  list : ∀ b (B : UtHashBucket), buckets[b]? = some B → Chain chain c B.hhHead (chains b)
  count : ∀ b (B : UtHashBucket), buckets[b]? = some B → B.count = UInt32.ofNat (chains b).length

/-- A change to one bucket. -/
theorem Buckets.set {b : ℕ} {B : UtHashBucket} {k S : List ℕ} (h : Buckets c buckets chains)
    (hr : chain.Relinks c c' S) (hk : Chain chain c' B.hhHead k)
    (hcount : B.count = .ofNat k.length) (hout : ∀ d, d ≠ b → ∀ i ∈ chains d, i ∉ S) :
    Buckets c' (buckets.set b B) (Function.update chains b k) := by
  constructor
  all_goals
    intro d D hD
    rw [List.getElem?_set] at hD
    by_cases hd : b = d
    · subst hd
      rw [if_pos rfl] at hD
      split at hD
      · cases hD
        rw [Function.update_self]
        assumption
      · cases hD
    · rw [if_neg hd] at hD
      rw [Function.update_of_ne (Ne.symm hd)]
      first
        | exact (h.list d D hD).congr_get fun i hi => hr.frame i (hout d (Ne.symm hd) i hi)
        | exact h.count d D hD

/-! ### The expansion -/

/-- The items of the new bucket `b` once the items `done` have been dealt out. -/
def dealt (c : Cells (Elem β)) (n : ℕ) (done : List ℕ) (b : ℕ) : List ℕ :=
  (done.filter fun i => bktAt c n i = some b).reverse

/-- The items `done` of the heap `c` have been dealt out to `n` buckets. -/
structure Expanding (c : Cells (Elem β)) (n : ℕ) (x : Expansion β) (done : List ℕ) : Prop where
  length : x.buckets.length = n
  buckets : Buckets x.elems x.buckets (dealt c n done)
  relinks : chain.Relinks c x.elems done

theorem mem_dealt {b : ℕ} : i ∈ dealt c n done b ↔ i ∈ done ∧ bktAt c n i = some b := by
  simp [dealt]

theorem dealt_snoc (hi : bktAt c n i = some b) :
    dealt c n (done ++ [i]) = Function.update (dealt c n done) b (i :: dealt c n done b) := by
  funext d
  rw [dealt, List.filter_append, List.reverse_append]
  by_cases hd : d = b
  · subst hd
    rw [Function.update_self]
    simp [hi, dealt]
  · rw [Function.update_of_ne hd]
    simp [hi, Ne.symm hd, dealt]

theorem Expanding.start (c : Cells (Elem β)) (n : ℕ) :
    Expanding c n ⟨c, List.replicate n ⟨none, 0, 0⟩, 0⟩ [] := by
  refine ⟨List.length_replicate, ⟨fun b B hB => ?_, fun b B hB => ?_⟩, .refl c⟩
  all_goals
    rw [List.getElem?_replicate] at hB
    split at hB
    · cases hB
      first
        | exact .nil c
        | rfl
    · cases hB

/-- One item. -/
theorem Expanding.item {x : Expansion β} {numBuckets : UInt32} {k : ℕ} (ideal : UInt32)
    (h : Expanding c (2 ^ k) x done) (hn : (numBuckets * 2).toNat = 2 ^ k) (hi : i ∉ done)
    (hlive : (c.get i).isSome) :
    ∃ x', expandItem numBuckets ideal x i = some x' ∧ Expanding c (2 ^ k) x' (done ++ [i]) := by
  obtain ⟨e, he⟩ := Option.isSome_iff_exists.mp hlive
  have hget : x.elems.get i = some e := by rw [h.relinks.frame i hi, he]
  let bkt := hashToBkt e.hh.hashv (numBuckets * 2)
  have hbkt : bktAt c (2 ^ k) i = some bkt.toNat := by
    rw [bktAt, he, Option.map_some, hashToBkt_toNat hn]
  have hlt : bkt.toNat < x.buckets.length := by
    rw [h.length, hashToBkt_toNat hn]
    exact Nat.mod_lt _ (Nat.two_pow_pos k)
  obtain ⟨B, hB⟩ : ∃ B, x.buckets[bkt.toNat]? = some B := ⟨_, List.getElem?_eq_getElem hlt⟩
  have hnew : i ∉ dealt c (2 ^ k) done bkt.toNat := fun hmem => hi (mem_dealt.mp hmem).1
  obtain ⟨elems, hlink, hchain, hr⟩ := linkFirst_chain (h.buckets.list _ _ hB) hnew
    (by rw [hget]; rfl)
  have hsub : i :: dealt c (2 ^ k) done bkt.toNat ⊆ done ++ [i] := by
    intro j hj
    rcases List.mem_cons.mp hj with rfl | hj
    · simp
    · exact List.mem_append_left _ (mem_dealt.mp hj).1
  have hout : ∀ d, d ≠ bkt.toNat → ∀ j ∈ dealt c (2 ^ k) done d,
      j ∉ i :: dealt c (2 ^ k) done bkt.toNat := by
    intro d hd j hj hmem
    rcases List.mem_cons.mp hmem with rfl | hmem
    · exact hi (mem_dealt.mp hj).1
    · exact hd (Option.some.inj ((mem_dealt.mp hj).2.symm.trans (mem_dealt.mp hmem).2))
  have hlink : linkFirst x.elems (B.grow ideal).hhHead i = some elems := hlink
  refine ⟨⟨elems, x.buckets.set bkt.toNat { B.grow ideal with hhHead := some i }, _⟩,
    by simp only [expandItem, hget, hB, hlink, bkt, Option.bind_eq_bind, Option.bind_some]; rfl,
    ⟨by rw [List.length_set, h.length], ?_,
      (h.relinks.mono (List.subset_append_left _ _)).trans (hr.mono hsub)⟩⟩
  rw [dealt_snoc hbkt]
  refine h.buckets.set hr hchain ?_ hout
  rw [List.length_cons, UInt32.ofNat_add, ← h.buckets.count _ _ hB]
  rfl

/-- The items of an old bucket. -/
theorem Expanding.chain {x : Expansion β} {numBuckets : UInt32} {k fuel : ℕ} {r : List ℕ}
    {p : Option ℕ} (ideal : UInt32) (h : Expanding c (2 ^ k) x done)
    (hn : (numBuckets * 2).toNat = 2 ^ k)
    (hl : Linked (Uthash.chain.prevAt c) (Uthash.chain.nextAt c) p r none)
    (hnodup : (done ++ r).Nodup) (hfuel : r.length ≤ fuel) :
    ∃ x', expandChain numBuckets ideal fuel r.head? x = some x' ∧
      Expanding c (2 ^ k) x' (done ++ r) := by
  induction r generalizing x done p fuel with
  | nil => exact ⟨x, by simp [expandChain], by simpa using h⟩
  | cons i r ih =>
    obtain ⟨fuel, rfl⟩ : ∃ m, fuel = m + 1 := Nat.exists_eq_add_one.mpr (by simp at hfuel; omega)
    have hlive := (hl.live List.mem_cons_self).1
    rw [Hook.prevAt, Option.isSome_map] at hlive
    obtain ⟨-, hnext, hl⟩ := hl
    have hi : i ∉ done := fun hmem => (List.nodup_append.mp hnodup).2.2 i hmem i (by simp) rfl
    -- the old pointer is read before the item moves
    have hnxt : Uthash.chain.nextAt x.elems i = some r.head? := by
      rw [Hook.nextAt, h.relinks.frame i hi, ← Hook.nextAt, hnext, Option.or_none]
    obtain ⟨y, hitem, hy⟩ := h.item ideal hn hi hlive
    rw [List.append_cons] at hnodup ⊢
    obtain ⟨x', hrest, hx'⟩ := ih hy hl hnodup (by simpa using hfuel)
    exact ⟨x', by simp [expandChain, hnxt, hitem, hrest], hx'⟩

/-- The old buckets. -/
theorem Expanding.all {x : Expansion β} {numBuckets : UInt32} {k : ℕ} (ks : List ℕ)
    (ideal : UInt32) (h : Expanding c (2 ^ k) x done) (hn : (numBuckets * 2).toNat = 2 ^ k)
    (hb : Buckets c buckets chains) (hks : ∀ b ∈ ks, b < buckets.length)
    (hnodup : (done ++ ks.flatMap chains).Nodup) :
    ∃ x', ks.foldlM (fun (x : Expansion β) i => do
        let b ← buckets[i]?
        expandChain numBuckets ideal x.elems.next b.hhHead x) x = some x' ∧
      Expanding c (2 ^ k) x' (done ++ ks.flatMap chains) := by
  induction ks generalizing x done with
  | nil => exact ⟨x, rfl, by simpa using h⟩
  | cons b ks ih =>
    obtain ⟨B, hB⟩ : ∃ B, buckets[b]? = some B :=
      ⟨_, List.getElem?_eq_getElem (hks b List.mem_cons_self)⟩
    rw [List.flatMap_cons, ← List.append_assoc] at hnodup ⊢
    have hl := hb.list b B hB
    obtain ⟨y, hchain, hy⟩ := h.chain ideal hn hl.linked (List.nodup_append.mp hnodup).1 hl.length_le
    obtain ⟨x', hrest, hx'⟩ := ih hy (fun d hd => hks d (List.mem_cons_of_mem b hd)) hnodup
    refine ⟨x', ?_, hx'⟩
    rw [List.foldlM_cons, hB, Option.bind_eq_bind, Option.bind_eq_bind, Option.bind_some,
      hl.head_eq, h.relinks.next, hchain, Option.bind_some]
    exact hrest

/-! ### A table -/

/-- The table `T` has the elements `l` in the lists `chains`. -/
structure Filed (c : Cells (Elem β)) (T : UtHashTable) (l : List ℕ) (chains : ℕ → List ℕ) :
    Prop where
  log2 : T.log2NumBuckets.toNat < 32
  num : T.numBuckets.toNat = 2 ^ T.log2NumBuckets.toNat
  length : T.buckets.length = T.numBuckets.toNat
  buckets : Buckets c T.buckets chains
  live : ∀ i ∈ l, (c.get i).isSome
  mem : ∀ b i, i ∈ chains b ↔ i ∈ l ∧ bktAt c T.numBuckets.toNat i = some b

theorem bktAt_lt {b : ℕ} (hn : 0 < n) (h : bktAt c n i = some b) : b < n := by
  obtain ⟨e, -, rfl⟩ := Option.map_eq_some_iff.mp h
  exact Nat.mod_lt _ hn

namespace Filed
variable {T : UtHashTable} (h : Filed c T l chains)
include h

theorem pos : 0 < T.numBuckets.toNat := by
  rw [h.num]
  exact Nat.two_pow_pos _

/-- Every element has a bucket. -/
theorem exists_bkt (hi : i ∈ l) :
    ∃ b, bktAt c T.numBuckets.toNat i = some b ∧ b < T.buckets.length ∧ i ∈ chains b := by
  obtain ⟨e, he⟩ := Option.isSome_iff_exists.mp (h.live i hi)
  have hbkt : bktAt c T.numBuckets.toNat i = some (e.hh.hashv.toNat % T.numBuckets.toNat) := by
    rw [bktAt, he]
    rfl
  exact ⟨_, hbkt, h.length.symm ▸ bktAt_lt h.pos hbkt, (h.mem _ i).mpr ⟨hi, hbkt⟩⟩

theorem apart {b d : ℕ} (hb : i ∈ chains b) (hd : i ∈ chains d) : b = d :=
  Option.some.inj (((h.mem b i).mp hb).2.symm.trans ((h.mem d i).mp hd).2)

theorem mem_flatMap : i ∈ (List.range T.numBuckets.toNat).flatMap chains ↔ i ∈ l := by
  rw [List.mem_flatMap]
  constructor
  · rintro ⟨b, -, hb⟩
    exact ((h.mem b i).mp hb).1
  · intro hi
    obtain ⟨b, -, hlt, hb⟩ := h.exists_bkt hi
    exact ⟨b, List.mem_range.mpr (h.length ▸ hlt), hb⟩

theorem nodup_flatMap : ((List.range T.numBuckets.toNat).flatMap chains).Nodup := by
  rw [List.nodup_flatMap]
  constructor
  · intro b hb
    have hlt : b < T.buckets.length := h.length ▸ List.mem_range.mp hb
    exact (h.buckets.list b _ (List.getElem?_eq_getElem hlt)).nodup
  · exact List.nodup_range.imp fun hne i hb hd => hne (h.apart hb hd)

/-- A table with twice as many buckets has the same elements. -/
theorem expand (hlog : T.log2NumBuckets.toNat < 31) :
    ∃ c' T' chains', hashExpandBuckets c T = some (c', T') ∧ Filed c' T' l chains' ∧
      chain.Relinks c c' l ∧ T'.tail = T.tail ∧ T'.numItems = T.numItems := by
  have hlog' : (T.log2NumBuckets + 1).toNat = T.log2NumBuckets.toNat + 1 := by
    rw [UInt32.toNat_add]
    exact Nat.mod_eq_of_lt (by simp; omega)
  have hnum : (T.numBuckets * 2).toNat = 2 ^ (T.log2NumBuckets + 1).toNat := by
    have hle : 2 ^ (T.log2NumBuckets.toNat + 1) ≤ 2 ^ 31 :=
      Nat.pow_le_pow_right (by omega) (by omega)
    rw [UInt32.toNat_mul, h.num, hlog']
    exact Nat.mod_eq_of_lt (by simp [Nat.pow_succ] at hle ⊢; omega)
  have htwice : 2 * T.numBuckets.toNat = 2 ^ (T.log2NumBuckets + 1).toNat := by
    rw [hlog', h.num, Nat.pow_succ, Nat.mul_comm]
  obtain ⟨x, hx, hdone⟩ := (Expanding.start c (2 ^ (T.log2NumBuckets + 1).toNat)).all
    (List.range T.numBuckets.toNat) (idealChainMaxlen T) hnum h.buckets
    (fun b hb => h.length ▸ List.mem_range.mp hb) (by simpa using h.nodup_flatMap)
  rw [List.nil_append] at hdone
  have hr : chain.Relinks c x.elems l := hdone.relinks.mono fun i hi => h.mem_flatMap.mp hi
  have hdata := (chain_relinks_app hr).2.2
  refine ⟨x.elems, T.expanded x, dealt c (2 ^ (T.log2NumBuckets + 1).toNat)
      ((List.range T.numBuckets.toNat).flatMap chains), ?_, ?_, hr, ?_⟩
  · have hfit : ¬ 32 ≤ T.log2NumBuckets + 1 := by
      rw [UInt32.le_iff_toNat_le, hlog']
      simp
      omega
    rw [hashExpandBuckets, if_neg hfit, htwice, hx]
    rfl
  · refine ⟨?_, hnum, hdone.length.trans hnum.symm, hdone.buckets, fun i hi => ?_, fun b i => ?_⟩
    · show (T.log2NumBuckets + 1).toNat < 32
      omega
    · rw [hr.live]
      exact h.live i hi
    · show _ ↔ i ∈ l ∧ bktAt x.elems (T.numBuckets * 2).toNat i = some b
      rw [mem_dealt, h.mem_flatMap, hnum, bktAt_congr hdata]
  · exact ⟨rfl, rfl⟩

end Filed

end PubSub.Uthash
