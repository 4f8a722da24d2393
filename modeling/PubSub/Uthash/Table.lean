import PubSub.Lib.Linked
import PubSub.Topic

/-! The hash table of `uthash.h`. An element carries a handle, which puts it in two lists:
that of all elements in the order of their insertion, and that of its bucket. A pointer to
a handle and a pointer to its element are the same address here. The hash function is a
parameter, as `HASH_FUNCTION` is; `none` is a pointer that is NULL or was freed, an index
past the end of an array, or a shift by the width of the type. -/

namespace PubSub.Uthash

open Lib

/-- `UT_hash_handle`, with the text at `key`. -/
structure UtHashHandle where
  tbl : Option ℕ
  prev : Option ℕ
  next : Option ℕ
  hhPrev : Option ℕ
  hhNext : Option ℕ
  key : Str
  keylen : UInt32
  hashv : UInt32

/-- `UT_hash_bucket`. -/
structure UtHashBucket where
  hhHead : Option ℕ
  count : UInt32
  expandMult : UInt32

/-- `UT_hash_table`. -/
structure UtHashTable where
  buckets : List UtHashBucket
  numBuckets : UInt32
  log2NumBuckets : UInt32
  numItems : UInt32
  tail : Option ℕ
  idealChainMaxlen : UInt32
  nonidealItems : UInt32
  ineffExpands : UInt32
  noexpand : UInt32

/-- An element of the program with its handle. -/
structure Elem (β : Type) where
  val : β
  hh : UtHashHandle

/-- The elements, the tables, and the variable that points to the first element. -/
structure UtHash (β : Type) where
  elems : Cells (Elem β)
  tables : Cells UtHashTable
  head : Option ℕ

variable {β : Type}

/-- The list of all elements. -/
def app : Hook (Elem β) (Elem β) where
  prev e := e.hh.prev
  next e := e.hh.next
  body e := { e with hh := { e.hh with prev := none, next := none } }
  setPrev p e := { e with hh := { e.hh with prev := p } }
  setNext n e := { e with hh := { e.hh with next := n } }
  prev_setPrev _ _ := rfl
  next_setPrev _ _ := rfl
  body_setPrev _ _ := rfl
  prev_setNext _ _ := rfl
  next_setNext _ _ := rfl
  body_setNext _ _ := rfl

/-- The list of a bucket. -/
def chain : Hook (Elem β) (Elem β) where
  prev e := e.hh.hhPrev
  next e := e.hh.hhNext
  body e := { e with hh := { e.hh with hhPrev := none, hhNext := none } }
  setPrev p e := { e with hh := { e.hh with hhPrev := p } }
  setNext n e := { e with hh := { e.hh with hhNext := n } }
  prev_setPrev _ _ := rfl
  next_setPrev _ _ := rfl
  body_setPrev _ _ := rfl
  prev_setNext _ _ := rfl
  next_setNext _ _ := rfl
  body_setNext _ _ := rfl

def HASH_INITIAL_NUM_BUCKETS : UInt32 := 32
def HASH_INITIAL_NUM_BUCKETS_LOG2 : UInt32 := 5
def HASH_BKT_CAPACITY_THRESH : UInt32 := 10

/-- The length of a key as `unsigned`. -/
def keylen (key : Str) : UInt32 := .ofNat key.length

/-- `HASH_TO_BKT`. -/
def hashToBkt (hashv numBkts : UInt32) : UInt32 := hashv &&& (numBkts - 1)

/-- `el->hh.tbl`, with the table. -/
def UtHash.tblOf (s : UtHash β) (el : ℕ) : Option (ℕ × UtHashTable) := do
  let e ← s.elems.get el
  let t ← e.hh.tbl
  let T ← s.tables.get t
  some (t, T)

/-! ### `HASH_FIND` -/

/-- What `HASH_FIND_IN_BKT` compares. -/
def matchesKey (key : Str) (hashv : UInt32) (hh : UtHashHandle) : Bool :=
  hh.hashv = hashv ∧ hh.keylen = keylen key ∧
    hh.key.take (keylen key).toNat = key.take (keylen key).toNat

/-- `HASH_FIND_IN_BKT`, with a bound on its rounds. -/
def hashFindInBkt (elems : Cells (Elem β)) (key : Str) (hashv : UInt32) :
    ℕ → Option ℕ → Option (Option ℕ)
  | _, none => some none
  | 0, some _ => none
  | fuel + 1, some out => do
    let e ← elems.get out
    if matchesKey key hashv e.hh then some (some out)
    else hashFindInBkt elems key hashv fuel e.hh.hhNext

variable (hash : Str → UInt32)

/-- `HASH_FIND_STR`. -/
def hashFindStr (s : UtHash β) (key : Str) : Option (Option ℕ) :=
  match s.head with
  | none => some none
  | some h => do
    let (_, T) ← s.tblOf h
    let bkt := hashToBkt (hash key) T.numBuckets
    let b ← T.buckets[bkt.toNat]?
    hashFindInBkt s.elems key (hash key) s.elems.next b.hhHead

/-! ### `HASH_ADD` -/

/-- `el->prev = NULL; el->next = head; if (head) head->prev = el` of a bucket. -/
def linkFirst (elems : Cells (Elem β)) (head : Option ℕ) (el : ℕ) : Option (Cells (Elem β)) := do
  let elems ← elems.write el (chain.setNext head)
  let elems ← elems.write el (chain.setPrev none)
  elems.writeIf head (chain.setPrev (some el))

/-- The buckets that `HASH_EXPAND_BUCKETS` fills. -/
structure Expansion (β : Type) where
  elems : Cells (Elem β)
  buckets : List UtHashBucket
  nonidealItems : UInt32

/-- The count of a bucket with one item more, and its `expand_mult`. -/
def UtHashBucket.grow (ideal : UInt32) (b : UtHashBucket) : UtHashBucket where
  hhHead := b.hhHead
  count := b.count + 1
  expandMult :=
    if ideal < b.count + 1 ∧ b.expandMult * ideal < b.count + 1 then b.expandMult + 1
    else b.expandMult

/-- One item of `HASH_EXPAND_BUCKETS`. -/
def expandItem (numBuckets ideal : UInt32) (x : Expansion β) (thh : ℕ) : Option (Expansion β) := do
  let e ← x.elems.get thh
  let bkt := hashToBkt e.hh.hashv (numBuckets * 2)
  let b := (← x.buckets[bkt.toNat]?).grow ideal
  let nonideal := if ideal < b.count then x.nonidealItems + 1 else x.nonidealItems
  let elems ← linkFirst x.elems b.hhHead thh
  some ⟨elems, x.buckets.set bkt.toNat { b with hhHead := some thh }, nonideal⟩

/-- The items of one bucket. -/
def expandChain (numBuckets ideal : UInt32) : ℕ → Option ℕ → Expansion β → Option (Expansion β)
  | _, none, x => some x
  | 0, some _, _ => none
  | fuel + 1, some thh, x => do
    let nxt ← chain.nextAt x.elems thh
    let x ← expandItem numBuckets ideal x thh
    expandChain numBuckets ideal fuel nxt x

/-- `ideal_chain_maxlen` for the number of buckets that is to come. -/
def idealChainMaxlen (T : UtHashTable) : UInt32 :=
  (T.numItems >>> (T.log2NumBuckets + 1)) +
    if T.numItems &&& (T.numBuckets * 2 - 1) ≠ 0 then 1 else 0

/-- The table with the buckets that were filled. -/
def UtHashTable.expanded (T : UtHashTable) (x : Expansion β) : UtHashTable :=
  let ineffExpands := if T.numItems >>> 1 < x.nonidealItems then T.ineffExpands + 1 else 0
  { T with
    buckets := x.buckets
    numBuckets := T.numBuckets * 2
    log2NumBuckets := T.log2NumBuckets + 1
    idealChainMaxlen := idealChainMaxlen T
    nonidealItems := x.nonidealItems
    ineffExpands := ineffExpands
    noexpand := if 1 < ineffExpands then 1 else T.noexpand }

/-- `HASH_EXPAND_BUCKETS`. -/
def hashExpandBuckets (elems : Cells (Elem β)) (T : UtHashTable) :
    Option (Cells (Elem β) × UtHashTable) :=
  if 32 ≤ T.log2NumBuckets + 1 then none
  else do
    let x ← (List.range T.numBuckets.toNat).foldlM (fun (x : Expansion β) i => do
      let b ← T.buckets[i]?
      expandChain T.numBuckets (idealChainMaxlen T) x.elems.next b.hhHead x)
      ⟨elems, List.replicate (2 * T.numBuckets.toNat) ⟨none, 0, 0⟩, 0⟩
    some (x.elems, T.expanded x)

/-- The condition of an expansion. -/
def UtHashBucket.full (b : UtHashBucket) : Bool :=
  (b.expandMult + 1) * HASH_BKT_CAPACITY_THRESH ≤ b.count

/-- `HASH_ADD_TO_BKT`. -/
def hashAddToBkt (elems : Cells (Elem β)) (T : UtHashTable) (bkt : UInt32) (add : ℕ) :
    Option (Cells (Elem β) × UtHashTable) := do
  let b ← T.buckets[bkt.toNat]?
  let elems ← linkFirst elems b.hhHead add
  let b := { b with hhHead := some add, count := b.count + 1 }
  let T := { T with buckets := T.buckets.set bkt.toNat b }
  if b.full && T.noexpand = 0 then hashExpandBuckets elems T
  else some (elems, T)

/-- `HASH_ADD_TO_TABLE`. -/
def hashAddToTable (s : UtHash β) (hashv : UInt32) (add : ℕ) : Option (UtHash β) := do
  let (t, T) ← s.tblOf (← s.head)
  let T := { T with numItems := T.numItems + 1 }
  let (elems, T) ← hashAddToBkt s.elems T (hashToBkt hashv T.numBuckets) add
  let tables ← s.tables.write t fun _ => T
  some { s with elems := elems, tables := tables }

/-- The table of `HASH_MAKE_TABLE`. -/
def newTable (add : ℕ) : UtHashTable where
  buckets := List.replicate HASH_INITIAL_NUM_BUCKETS.toNat ⟨none, 0, 0⟩
  numBuckets := HASH_INITIAL_NUM_BUCKETS
  log2NumBuckets := HASH_INITIAL_NUM_BUCKETS_LOG2
  numItems := 0
  tail := some add
  idealChainMaxlen := 0
  nonidealItems := 0
  ineffExpands := 0
  noexpand := 0

def setTbl (elems : Cells (Elem β)) (el : ℕ) (tbl : Option ℕ) : Option (Cells (Elem β)) :=
  elems.write el fun e => { e with hh := { e.hh with tbl := tbl } }

/-- `HASH_MAKE_TABLE`. -/
def hashMakeTable (s : UtHash β) (add : ℕ) : Option (UtHash β) := do
  let elems ← setTbl s.elems add (some s.tables.next)
  some { s with elems := elems, tables := s.tables.alloc (newTable add) }

/-- `HASH_APPEND_LIST`. -/
def hashAppendList (s : UtHash β) (h add : ℕ) : Option (UtHash β) := do
  let elems ← s.elems.write add (app.setNext none)
  let (t, T) ← s.tblOf h
  let elems ← elems.write add (app.setPrev T.tail)
  let elems ← elems.write (← T.tail) (app.setNext (some add))
  let tables ← s.tables.write t fun _ => { T with tail := some add }
  some { s with elems := elems, tables := tables }

/-- The element with its key. -/
def Elem.setKey (key : Str) (e : Elem β) : Elem β :=
  { e with hh := { e.hh with hashv := hash key, key := key, keylen := keylen key } }

/-- `HASH_ADD_KEYPTR`. -/
def hashAddKeyptr (s : UtHash β) (key : Str) (add : ℕ) : Option (UtHash β) := do
  let elems ← s.elems.write add (Elem.setKey hash key)
  let s := { s with elems := elems }
  let s ← match s.head with
    | none => do
      let elems ← s.elems.write add (app.setNext none)
      let elems ← elems.write add (app.setPrev none)
      let s ← hashMakeTable { s with elems := elems } add
      some { s with head := some add }
    | some h => do
      let e ← s.elems.get h
      let elems ← setTbl s.elems add e.hh.tbl
      hashAppendList { s with elems := elems } h add
  hashAddToTable s (hash key) add

/-! ### `HASH_DEL` -/

/-- `if (el->prev) el->prev->next = el->next; if (el->next) el->next->prev = el->prev`, on
either list. -/
def unlink (L : Hook (Elem β) (Elem β)) (elems : Cells (Elem β)) (el : ℕ) :
    Option (Cells (Elem β)) := do
  let prev ← L.prevAt elems el
  let next ← L.nextAt elems el
  let elems ← elems.writeIf prev (L.setNext next)
  let next ← L.nextAt elems el
  let prev ← L.prevAt elems el
  elems.writeIf next (L.setPrev prev)

/-- `HASH_DEL_IN_BKT`. -/
def hashDelInBkt (elems : Cells (Elem β)) (b : UtHashBucket) (del : ℕ) :
    Option (Cells (Elem β) × UtHashBucket) := do
  let next ← chain.nextAt elems del
  let hhHead := if b.hhHead = some del then next else b.hhHead
  let elems ← unlink chain elems del
  some (elems, { b with count := b.count - 1, hhHead := hhHead })

/-- The tail is the element before the one that goes, if that is the last. -/
def moveTail (tables : Cells UtHashTable) (t : ℕ) (T : UtHashTable) (prev : Option ℕ) (del : ℕ) :
    Option (Cells UtHashTable) :=
  if T.tail = some del then do
    let tail ← prev
    tables.write t fun T => { T with tail := some tail }
  else some tables

/-- `HASH_DELETE_HH`. -/
def hashDelete (s : UtHash β) (del : ℕ) : Option (UtHash β) := do
  let prev ← app.prevAt s.elems del
  let next ← app.nextAt s.elems del
  let (t, T) ← s.tblOf (← s.head)
  if prev = none ∧ next = none then do
    let tables ← s.tables.release t
    some { s with tables := tables, head := none }
  else do
    let tables ← moveTail s.tables t T prev del
    let elems ← unlink app s.elems del
    let s := { s with
      elems := elems, tables := tables, head := if prev = none then next else s.head }
    let (t, T) ← s.tblOf (← s.head)
    let e ← s.elems.get del
    let bkt := hashToBkt e.hh.hashv T.numBuckets
    let b ← T.buckets[bkt.toNat]?
    let (elems, b) ← hashDelInBkt s.elems b del
    let tables ← s.tables.write t fun T =>
      { T with buckets := T.buckets.set bkt.toNat b, numItems := T.numItems - 1 }
    some { s with elems := elems, tables := tables }

/-! ### `HASH_ITER` -/

/-- `el ? el->hh.next : NULL`. -/
def nextIf (elems : Cells (Elem β)) : Option ℕ → Option (Option ℕ)
  | some el => app.nextAt elems el
  | none => some none

/-- The loop of `HASH_ITER`, which has the next element before the body runs, with a bound
on its rounds. -/
def hashIterLoop {σ : Type} (elems : σ → Cells (Elem β)) (body : ℕ → σ → Option σ) :
    ℕ → Option ℕ → Option ℕ → σ → Option σ
  | _, none, _, x => some x
  | 0, some _, _, _ => none
  | fuel + 1, some el, tmp, x => do
    let x ← body el x
    let tmp' ← nextIf (elems x) tmp
    hashIterLoop elems body fuel tmp tmp' x

/-- `HASH_ITER`. -/
def hashIter {σ : Type} (table : σ → UtHash β) (body : ℕ → σ → Option σ) (x : σ) : Option σ := do
  let tmp ← nextIf (table x).elems (table x).head
  hashIterLoop (fun x => (table x).elems) body (table x).elems.next (table x).head tmp x

/-! ### `HASH_FSCK` -/

/-- The loop over a bucket, or over all elements: every `prev` is the element before it.
The elements are counted. -/
def fsckList (L : Hook (Elem β) (Elem β)) (elems : Cells (Elem β)) :
    ℕ → Option ℕ → Option ℕ → UInt32 → Option (Bool × UInt32)
  | _, none, _, count => some (true, count)
  | 0, some _, _, _ => none
  | fuel + 1, some thh, prev, count => do
    if (← L.prevAt elems thh) = prev then
      fsckList L elems fuel (← L.nextAt elems thh) (some thh) (count + 1)
    else some (false, count)

/-- The loop over the buckets, with the items so far. -/
def fsckBuckets (elems : Cells (Elem β)) : List UtHashBucket → UInt32 → Option (Bool × UInt32)
  | [], count => some (true, count)
  | b :: bs, count => do
    let (ok, n) ← fsckList chain elems elems.next b.hhHead none 0
    if ok ∧ b.count = n then fsckBuckets elems bs (count + n) else some (false, count)

/-- `HASH_FSCK`: whether no message is printed. -/
def hashFsck (s : UtHash β) : Option Bool :=
  match s.head with
  | none => some true
  | some h => do
    let (_, T) ← s.tblOf h
    let (ok, count) ← fsckBuckets s.elems (T.buckets.take T.numBuckets.toNat) 0
    if ok ∧ count = T.numItems then do
      let (ok, count) ← fsckList app s.elems s.elems.next s.head none 0
      some (ok && count = T.numItems)
    else some false

end PubSub.Uthash
