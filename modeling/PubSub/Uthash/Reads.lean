import PubSub.Uthash.Laws

/-! Reading a table: finding a key, going through the elements, and the check of
`HASH_FSCK`. -/

namespace PubSub.Uthash

open Lib

variable {β : Type} {c c' : Cells (Elem β)} {T : UtHashTable} {chains : ℕ → List ℕ}
  {hash : Str → UInt32} {s : UtHash β} {t : ℕ} {key : Str} {l r a b : List ℕ} {i k : ℕ}
  {p : Option ℕ}

/-! ### `HASH_FIND` -/

/-- The first of the bucket is found. -/
theorem hashFindInBkt_eq (key : Str) (hashv : UInt32) {fuel : ℕ}
    (hl : Linked (chain.prevAt c) (chain.nextAt c) p r none) (hfuel : r.length ≤ fuel) :
    hashFindInBkt c key hashv fuel r.head? =
      some (r.find? fun i => (c.get i).any fun e => matchesKey key hashv e.hh) := by
  induction r generalizing p fuel with
  | nil => simp [hashFindInBkt]
  | cons i r ih =>
    obtain ⟨fuel, rfl⟩ : ∃ m, fuel = m + 1 := Nat.exists_eq_add_one.mpr (by simp at hfuel; omega)
    have hlive := (hl.live List.mem_cons_self).1
    rw [Hook.prevAt, Option.isSome_map] at hlive
    obtain ⟨e, he⟩ := Option.isSome_iff_exists.mp hlive
    obtain ⟨-, hnext, hl⟩ := hl
    rw [Option.or_none, Hook.nextAt, he, Option.map_some, Option.some.injEq] at hnext
    rw [List.head?_cons, hashFindInBkt, he, Option.bind_eq_bind, Option.bind_some, List.find?_cons,
      he, Option.any_some]
    cases matchesKey key hashv e.hh with
    | true => rfl
    | false =>
      have hnext : e.hh.hhNext = r.head? := hnext
      rw [if_neg Bool.false_ne_true, hnext, ih hl (by simpa using hfuel)]

/-- The key of the element at an address. -/
def keyAt (c : Cells (Elem β)) (i : ℕ) : Option Str := (c.get i).map fun e => e.hh.key

theorem matchesKey_iff {hh : UtHashHandle} (hk : Keyed hash t hh) (hlen : hh.key.length < 2 ^ 32)
    (hlen' : key.length < 2 ^ 32) : matchesKey key (hash key) hh = true ↔ hh.key = key := by
  have hof : ∀ x : Str, x.length < 2 ^ 32 → (keylen x).toNat = x.length := fun x hx =>
    UInt32.toNat_ofNat_of_lt' hx
  rw [matchesKey, decide_eq_true_eq]
  constructor
  · rintro ⟨-, hl, ht⟩
    rw [hk.2.1] at hl
    have hleq := congrArg UInt32.toNat hl
    rw [hof _ hlen, hof _ hlen'] at hleq
    rwa [hof _ hlen', List.take_of_length_le hleq.le, List.take_length] at ht
  · intro heq
    refine ⟨by rw [hk.2.2, heq], by rw [hk.2.1, heq], by rw [heq]⟩

/-- A search finds an element with the key if there is one. -/
theorem Rep.find (h : Rep hash s l) (hlen : ∀ i ∈ l, ∀ k ∈ keyAt s.elems i, k.length < 2 ^ 32)
    (hkey : key.length < 2 ^ 32) :
    ∃ o, hashFindStr hash s key = some o ∧ (∀ i ∈ o, i ∈ l ∧ keyAt s.elems i = some key) ∧
      (o = none → ∀ i ∈ l, keyAt s.elems i ≠ some key) := by
  obtain ⟨rfl, hhead, -⟩ | ⟨t, T, chains, h⟩ := h
  · exact ⟨none, by rw [hashFindStr, hhead], nofun, fun _ => nofun⟩
  obtain ⟨x, hx⟩ : ∃ x, s.head = some x := by
    rw [h.list.head_eq, ← Option.isSome_iff_exists, List.isSome_head?]
    exact h.ne_nil
  have htbl := h.tblOf (List.mem_of_head? (h.list.head_eq ▸ hx))
  have hbkt : (hashToBkt (hash key) T.numBuckets).toNat < T.buckets.length := by
    rw [hashToBkt_toNat h.filed.num, h.filed.length, h.filed.num]
    exact Nat.mod_lt _ (Nat.two_pow_pos _)
  obtain ⟨B, hB⟩ : ∃ B, T.buckets[(hashToBkt (hash key) T.numBuckets).toNat]? = some B :=
    ⟨_, List.getElem?_eq_getElem hbkt⟩
  have hlist := h.filed.buckets.list _ _ hB
  have hfind := hashFindInBkt_eq key (hash key) hlist.linked hlist.length_le
  refine ⟨(chains (hashToBkt (hash key) T.numBuckets).toNat).find? fun i =>
    (s.elems.get i).any fun e => matchesKey key (hash key) e.hh, ?_, ?_, ?_⟩
  · simp only [hashFindStr, hx, htbl, Option.bind_eq_bind, Option.bind_some, hB]
    rw [hlist.head_eq]
    exact hfind
  · intro i hi
    have hmem := (h.filed.mem _ i).mp (List.mem_of_find?_eq_some hi)
    obtain ⟨e, he, hk⟩ := h.keyed i hmem.1
    have hm := List.find?_some hi
    rw [he, Option.any_some, matchesKey_iff hk (hlen i hmem.1 _ (by rw [keyAt, he]; rfl)) hkey] at hm
    exact ⟨hmem.1, by rw [keyAt, he, Option.map_some, hm]⟩
  · intro hnone i hi hkeyi
    obtain ⟨e, he, hk⟩ := h.keyed i hi
    rw [keyAt, he, Option.map_some, Option.some.injEq] at hkeyi
    have hin := (h.filed.mem _ i).mpr ⟨hi, h.filed.bkt_eq he⟩
    rw [hk.2.2, hkeyi] at hin
    have hm := List.find?_eq_none.mp hnone i hin
    rw [he, Option.any_some] at hm
    exact hm ((matchesKey_iff hk (hkeyi ▸ hkey) hkey).mpr hkeyi)

/-! ### `HASH_ITER` -/

theorem nextIf_chain {head : Option ℕ} (h : Chain app c head (a ++ b)) :
    nextIf c b.head? = some b.tail.head? := by
  cases b with
  | nil => rfl
  | cons i b =>
    have hnext := h.linked.at_middle.2
    rwa [Option.or_none] at hnext

section Iter
variable {σ : Type} {table : σ → UtHash β} {body : ℕ → σ → Option σ} {R : σ → List ℕ → Prop}
  (hrep : ∀ x l, R x l → Rep hash (table x) l)
  (hbody : ∀ x x' a i b, R x (a ++ i :: b) → body i x = some x' →
    R x' (a ++ i :: b) ∨ R x' (a ++ b))
include hrep hbody

theorem hashIterLoop_eq {x : σ} {fuel : ℕ} (h : R x (a ++ b)) (hfuel : b.length ≤ fuel) :
    hashIterLoop (fun x => (table x).elems) body fuel b.head? b.tail.head? x =
      b.foldlM (fun x i => body i x) x := by
  induction b generalizing x a fuel with
  | nil => simp [hashIterLoop]
  | cons i b ih =>
    obtain ⟨fuel, rfl⟩ : ∃ m, fuel = m + 1 := Nat.exists_eq_add_one.mpr (by simp at hfuel; omega)
    rw [List.head?_cons, List.tail_cons, hashIterLoop, List.foldlM_cons, Option.bind_eq_bind,
      Option.bind_eq_bind]
    cases hx : body i x with
    | none => rfl
    | some x' =>
      rw [Option.bind_some, Option.bind_some]
      -- the current element is behind the loop now, whether it is still there or not
      obtain ⟨a', h'⟩ : ∃ a', R x' (a' ++ b) := by
        rcases hbody _ _ _ _ _ h hx with h' | h'
        · exact ⟨a ++ [i], by rwa [List.append_assoc]⟩
        · exact ⟨a, h'⟩
      have hb : b.length ≤ fuel := by simpa using hfuel
      rw [nextIf_chain (hrep _ _ h').chain, Option.bind_some]
      exact ih h' hb

/-- A loop whose body takes at most the current element out of the table runs the body on
every element once, in the order of their insertion. -/
theorem hashIter_eq {x : σ} (h : R x l) :
    hashIter table body x = l.foldlM (fun x i => body i x) x := by
  have hlist := (hrep _ _ h).chain
  rw [hashIter, hlist.head_eq, nextIf_chain (a := []) hlist, Option.bind_eq_bind, Option.bind_some]
  exact hashIterLoop_eq hrep hbody (a := []) h hlist.length_le

end Iter

/-! ### `HASH_FSCK` -/

theorem fsckList_eq {L : Hook (Elem β) (Elem β)} {fuel : ℕ} (n : UInt32)
    (hl : Linked (L.prevAt c) (L.nextAt c) p r none) (hfuel : r.length ≤ fuel) :
    fsckList L c fuel r.head? p n = some (true, n + .ofNat r.length) := by
  induction r generalizing p fuel n with
  | nil => simp [fsckList]
  | cons i r ih =>
    obtain ⟨fuel, rfl⟩ : ∃ m, fuel = m + 1 := Nat.exists_eq_add_one.mpr (by simp at hfuel; omega)
    obtain ⟨hprev, hnext, hl⟩ := hl
    rw [Option.or_none] at hnext
    rw [List.head?_cons, fsckList, hprev, Option.bind_eq_bind, Option.bind_some, if_pos rfl, hnext,
      Option.bind_some, ih (n + 1) hl (by simpa using hfuel), List.length_cons, UInt32.ofNat_add,
      UInt32.add_comm (UInt32.ofNat r.length), ← UInt32.add_assoc]
    rfl

theorem fsckBuckets_eq {buckets bs : List UtHashBucket} (hb : Buckets c buckets chains)
    (hdrop : buckets.drop k = bs) (n : UInt32) :
    fsckBuckets c bs n =
      some (true, n + .ofNat ((List.range' k bs.length).flatMap chains).length) := by
  induction bs generalizing k n with
  | nil => simp [fsckBuckets]
  | cons B bs ih =>
    have hB : buckets[k]? = some B := by
      rw [← List.head?_drop, hdrop, List.head?_cons]
    have hrest : buckets.drop (k + 1) = bs := by
      rw [← List.drop_drop, hdrop, List.drop_succ_cons, List.drop_zero]
    have hlist := hb.list k B hB
    have hfsck := fsckList_eq 0 hlist.linked hlist.length_le
    rw [← hlist.head_eq, UInt32.zero_add] at hfsck
    simp only [fsckBuckets, hfsck, Option.bind_eq_bind, Option.bind_some]
    rw [if_pos ⟨trivial, hb.count k B hB⟩, ih hrest, List.length_cons, List.range'_succ,
      List.flatMap_cons, List.length_append, UInt32.ofNat_add, ← UInt32.add_assoc]

/-- The check finds nothing. -/
theorem Rep.fsck (h : Rep hash s l) : hashFsck s = some true := by
  obtain ⟨rfl, hhead, -⟩ | ⟨t, T, chains, h⟩ := h
  · rw [hashFsck, hhead]
  obtain ⟨x, hx⟩ : ∃ x, s.head = some x := by
    rw [h.list.head_eq, ← Option.isSome_iff_exists, List.isSome_head?]
    exact h.ne_nil
  have htbl := h.tblOf (List.mem_of_head? (h.list.head_eq ▸ hx))
  have hlength : ((List.range T.numBuckets.toNat).flatMap chains).length = l.length :=
    ((List.perm_ext_iff_of_nodup h.filed.nodup_flatMap h.list.nodup).mpr fun _ =>
      h.filed.mem_flatMap).length_eq
  have hbuckets := fsckBuckets_eq h.filed.buckets (List.drop_zero (l := T.buckets)) 0
  rw [← List.range_eq_range', h.filed.length, hlength, UInt32.zero_add] at hbuckets
  have happ := fsckList_eq 0 h.list.linked h.list.length_le
  rw [← h.list.head_eq, UInt32.zero_add] at happ
  rw [hashFsck, hx]
  simp only [htbl, ← h.filed.length, List.take_length, hbuckets, Option.bind_eq_bind,
    Option.bind_some]
  rw [if_pos ⟨trivial, h.items.symm⟩, ← hx, happ, Option.bind_some, h.items]
  simp

end PubSub.Uthash
