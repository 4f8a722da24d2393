import PubSub.Memory.Message

/-! What a message says, read off its blocks as the content of `PubSub.Message`, the
blocks it holds with what will release each, and what each function does to both. -/

namespace PubSub

open Lib

/-- The characters of a text are its bytes. -/
def toStr (l : List UInt8) : Str := l.map fun b => Char.ofNat b.toNat

/-- The text of a pointer that may be NULL. -/
def textOf (H : Blocks) : Option BlockId → Option (Option Str)
  | none => some none
  | some b => (textAt H b).map fun l => some (toStr l)

namespace PsUnion

/-- The value that a member stands for, if what it points to can be read. Pointers lie
at the addresses `addr`. -/
def load (addr : BlockId → UInt64) (H : Blocks) : PsUnion → Option PsValue
  | .zero => none
  | .int v => some (.int v)
  | .dbl bits => some (.dbl bits)
  | .ptr p => some (.ptr (p.elim 0 addr))
  | .str p => p.bind fun b => (textAt H b).map fun l => .str (toStr l)
  | .bool b => some (.bool b)
  | .buf p sz dtor => p.bind fun b => (bytesAt H b sz).map fun l => .buf l dtor
  | .err id desc => desc.bind fun b => (textAt H b).map fun l => .err id (toStr l)

/-- The block a member points to, and what releases it: `free` for a text, its own
destructor, if any, for a buffer. A pointer value is only a value. -/
def blocks : PsUnion → List (BlockId × Option PsDtor)
  | .str (some b) => [(b, some .free)]
  | .buf (some b) _ dtor => [(b, dtor)]
  | .err _ (some b) => [(b, some .free)]
  | _ => []

/-- The blocks among the arguments that the message takes as they are. -/
def given : PsUnion → List (BlockId × Option PsDtor)
  | .buf (some b) _ dtor => [(b, dtor)]
  | _ => []

end PsUnion

def textBlock : Option BlockId → List (BlockId × Option PsDtor)
  | none => []
  | some b => [(b, some .free)]

namespace RawMsg

/-- The value by the type bits, which have to be those of the member stored last. -/
def loadValue (addr : BlockId → UInt64) (H : Blocks) (msg : RawMsg) : Option PsValue :=
  if takesArgument msg.flags then
    if msg.isType msg.value.typ then msg.value.load addr H else none
  else some .nil

def load (addr : BlockId → UInt64) (H : Blocks) (msg : RawMsg) : Option PsMsg := do
  let topic ← textOf H msg.topic
  let rtopic ← textOf H msg.rtopic
  let value ← msg.loadValue addr H
  some { ref := msg.ref, topic := topic, rtopic := rtopic, flags := msg.flags,
         priority := msg.priority, value := value }

def valueBlocks (msg : RawMsg) : List (BlockId × Option PsDtor) :=
  if msg.isType msg.value.typ then msg.value.blocks else []

/-- The blocks of the topic, of the response topic and of the value. -/
def blocks (msg : RawMsg) : List (BlockId × Option PsDtor) :=
  textBlock msg.topic ++ textBlock msg.rtopic ++ msg.valueBlocks

end RawMsg

/-- The releases that the blocks are due. -/
def disposals (l : List (BlockId × Option PsDtor)) : List (BlockId × PsDtor) :=
  l.filterMap fun (b, dtor) => dtor.map fun dtor => (b, dtor)

/-- How often the block is due to be released. -/
def duties (l : List (BlockId × Option PsDtor)) (b : BlockId) : ℕ := Heap.count (disposals l) b

/-- How often the block is there without a destructor. -/
def loans (l : List (BlockId × Option PsDtor)) (b : BlockId) : ℕ :=
  l.countP fun x => x.1 = b ∧ x.2 = none

section Counts
variable {l l' : List (BlockId × Option PsDtor)} {b : BlockId}

theorem disposals_append (l l' : List (BlockId × Option PsDtor)) :
    disposals (l ++ l') = disposals l ++ disposals l' := List.filterMap_append

theorem mem_disposals {x : BlockId × PsDtor} : x ∈ disposals l ↔ (x.1, some x.2) ∈ l := by
  obtain ⟨b, dtor⟩ := x
  simp only [disposals, List.mem_filterMap, Option.map_eq_some_iff, Prod.mk.injEq]
  constructor
  · rintro ⟨⟨c, d⟩, hmem, dtor', hd, rfl, rfl⟩
    rwa [← hd]
  · intro hmem
    exact ⟨_, hmem, dtor, rfl, rfl, rfl⟩

@[simp] theorem duties_nil (b : BlockId) : duties [] b = 0 := rfl

@[simp] theorem loans_nil (b : BlockId) : loans [] b = 0 := rfl

@[simp] theorem duties_append (l l' : List (BlockId × Option PsDtor)) (b : BlockId) :
    duties (l ++ l') b = duties l b + duties l' b := by
  unfold duties
  rw [disposals_append, Heap.count_append]

@[simp] theorem loans_append (l l' : List (BlockId × Option PsDtor)) (b : BlockId) :
    loans (l ++ l') b = loans l b + loans l' b := List.countP_append

theorem duties_singleton (c : BlockId) (dtor : Option PsDtor) (b : BlockId) :
    duties [(c, dtor)] b = if c = b ∧ dtor.isSome then 1 else 0 := by
  cases dtor <;> simp [duties, disposals, Heap.count, List.countP_cons]

theorem loans_singleton (c : BlockId) (dtor : Option PsDtor) (b : BlockId) :
    loans [(c, dtor)] b = if c = b ∧ dtor = none then 1 else 0 := by
  simp [loans, List.countP_cons]

/-- A block of the list is in it with a destructor or without. -/
theorem count_blocks (l : List (BlockId × Option PsDtor)) (b : BlockId) :
    (l.countP fun x => x.1 = b) = duties l b + loans l b := by
  induction l with
  | nil => rfl
  | cons x l ih =>
    obtain ⟨c, dtor⟩ := x
    show List.countP _ ([(c, dtor)] ++ l) = duties ([(c, dtor)] ++ l) b + loans ([(c, dtor)] ++ l) b
    rw [List.countP_append, duties_append, loans_append, ih, duties_singleton, loans_singleton,
      List.countP_singleton]
    by_cases hc : c = b <;> cases dtor <;> simp [hc] <;> omega

theorem loans_textBlock (p : Option BlockId) (b : BlockId) : loans (textBlock p) b = 0 := by
  cases p with
  | none => rfl
  | some c => simp [textBlock, loans_singleton]

end Counts

/-! ### Reading -/

section Reading
variable {addr : BlockId → UInt64} {H H' : Blocks} {msg : RawMsg} {b : BlockId}

theorem textAt_congr (h : H'.blocks.get b = H.blocks.get b) : textAt H' b = textAt H b := by
  unfold textAt
  rw [h]

theorem bytesAt_congr (h : H'.blocks.get b = H.blocks.get b) (sz : UInt64) :
    bytesAt H' b sz = bytesAt H b sz := by
  unfold bytesAt
  rw [h]

theorem textOf_congr {p : Option BlockId}
    (h : ∀ x ∈ textBlock p, H'.blocks.get x.1 = H.blocks.get x.1) : textOf H' p = textOf H p := by
  cases p with
  | none => rfl
  | some b => rw [textOf, textOf, textAt_congr (h _ (List.mem_singleton_self _))]

theorem PsUnion.load_congr {v : PsUnion}
    (h : ∀ x ∈ v.blocks, H'.blocks.get x.1 = H.blocks.get x.1) : v.load addr H' = v.load addr H := by
  cases v with
  | str p =>
    cases p with
    | none => rfl
    | some b =>
      simp only [PsUnion.load, Option.bind_some, textAt_congr (h _ (List.mem_singleton_self _))]
  | buf p sz dtor =>
    cases p with
    | none => rfl
    | some b =>
      simp only [PsUnion.load, Option.bind_some, bytesAt_congr (h _ (List.mem_singleton_self _))]
  | err id p =>
    cases p with
    | none => rfl
    | some b =>
      simp only [PsUnion.load, Option.bind_some, textAt_congr (h _ (List.mem_singleton_self _))]
  | _ => rfl

theorem RawMsg.loadValue_congr (h : ∀ x ∈ msg.valueBlocks, H'.blocks.get x.1 = H.blocks.get x.1) :
    msg.loadValue addr H' = msg.loadValue addr H := by
  unfold RawMsg.loadValue
  unfold RawMsg.valueBlocks at h
  split
  · split
    case isTrue htyp =>
      rw [if_pos htyp] at h
      exact PsUnion.load_congr h
    case isFalse => rfl
  · rfl

/-- What a message says depends on its own blocks only. -/
theorem RawMsg.load_congr (h : ∀ x ∈ msg.blocks, H'.blocks.get x.1 = H.blocks.get x.1) :
    msg.load addr H' = msg.load addr H := by
  unfold RawMsg.load
  rw [textOf_congr fun x hx => h x (List.mem_append_left _ (List.mem_append_left _ hx)),
    textOf_congr fun x hx => h x (List.mem_append_left _ (List.mem_append_right _ hx)),
    loadValue_congr fun x hx => h x (List.mem_append_right _ hx)]

theorem RawMsg.load_eq_some {m : PsMsg} : msg.load addr H = some m ↔
    m.ref = msg.ref ∧ textOf H msg.topic = some m.topic ∧ textOf H msg.rtopic = some m.rtopic ∧
    m.flags = msg.flags ∧ m.priority = msg.priority ∧ msg.loadValue addr H = some m.value := by
  obtain ⟨ref, topic, rtopic, flags, priority, value⟩ := m
  simp only [RawMsg.load, Option.bind_eq_bind, Option.bind_eq_some_iff, Option.some.injEq,
    PsMsg.mk.injEq]
  constructor
  · rintro ⟨topic, ht, rtopic, hr, value, hv, rfl, rfl, rfl, rfl, rfl, rfl⟩
    exact ⟨rfl, ht, hr, rfl, rfl, hv⟩
  · rintro ⟨rfl, ht, hr, rfl, rfl, hv⟩
    exact ⟨topic, ht, rtopic, hr, value, hv, rfl, rfl, rfl, rfl, rfl, rfl⟩

end Reading

end PubSub
