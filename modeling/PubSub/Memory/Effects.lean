import PubSub.Memory.Contents

/-! What each function of a message does to the blocks: it returns if the message and
its arguments can be read, and then which blocks it releases, which it allocates, which
the message holds afterwards and what the message says. -/

namespace PubSub

open Lib

variable {addr : BlockId → UInt64} {H H' H₁ : Blocks} {msg : RawMsg} {b : BlockId}

/-! ### Types -/

theorem hasType_eq {flags typ : UInt32} (h : hasType flags typ = true) (t : UInt32) :
    hasType flags t = decide (typ = t) := by
  unfold hasType at h ⊢
  rw [of_decide_eq_true h]

/-- The flags that `ps_msg_set_vvalue` leaves. -/
def valueFlags (old flags : UInt32) : UInt32 :=
  (((old &&& ~~~PS_MSK_VALUE) ||| PS_NIL_TYP) &&& ~~~PS_MSK_VALUE) ||| (flags &&& PS_MSK_VALUE)

theorem hasType_valueFlags (old flags typ : UInt32) :
    hasType (valueFlags old flags) typ = hasType flags typ := by
  have hclear : ~~~PS_MSK_VALUE &&& PS_MSK_TYP = 0 := by decide
  have hkeep : PS_MSK_VALUE &&& PS_MSK_TYP = PS_MSK_TYP := by decide
  unfold hasType valueFlags
  generalize (old &&& ~~~PS_MSK_VALUE) ||| PS_NIL_TYP = x
  have hbits : ((x &&& ~~~PS_MSK_VALUE) ||| (flags &&& PS_MSK_VALUE)) &&& PS_MSK_TYP =
      flags &&& PS_MSK_TYP := by
    apply UInt32.toBitVec_inj.mp
    rw [UInt32.toBitVec_and, UInt32.toBitVec_or, BitVec.and_or_distrib_right,
      ← UInt32.toBitVec_and, ← UInt32.toBitVec_and, ← UInt32.toBitVec_or, UInt32.and_assoc, hclear,
      UInt32.and_zero, UInt32.zero_or, UInt32.and_assoc, hkeep]
  rw [hbits]

theorem takesArgument_valueFlags (old flags : UInt32) :
    takesArgument (valueFlags old flags) = takesArgument flags := by
  unfold takesArgument
  congr 1
  funext typ
  exact hasType_valueFlags old flags typ

theorem hasType_of_untyped {flags typ : UInt32} (h : ¬ takesArgument flags)
    (htyp : typ ∈ argumentTypes) : hasType flags typ = false := by
  rw [takesArgument, List.any_eq_true] at h
  exact Bool.eq_false_iff.mpr fun ht => h ⟨typ, htyp, ht⟩

theorem mem_argumentTypes {flags typ : UInt32} (h : takesArgument flags)
    (htyp : hasType flags typ = true) : typ ∈ argumentTypes := by
  by_contra hmem
  obtain ⟨t, ht, hflags⟩ := List.any_eq_true.mp h
  rw [hasType_eq htyp t, decide_eq_true_eq] at hflags
  exact hmem (hflags ▸ ht)

/-- Under the other types no member points to anything. -/
theorem PsUnion.blocks_of_untyped {flags : UInt32} {v : PsUnion} (h : ¬ takesArgument flags)
    (htyp : hasType flags v.typ = true) : v.blocks = [] := by
  have hnot : ∀ typ ∈ argumentTypes, v.typ ≠ typ := by
    rintro typ hmem rfl
    rw [hasType_of_untyped h hmem] at htyp
    cases htyp
  cases v with
  | str p => exact absurd rfl (hnot PS_STR_TYP (by decide))
  | buf p sz dtor => exact absurd rfl (hnot PS_BUF_TYP (by decide))
  | err id p => exact absurd rfl (hnot PS_ERR_TYP (by decide))
  | _ => rfl

theorem RawMsg.valueBlocks_of_untyped (h : ¬ takesArgument msg.flags) : msg.valueBlocks = [] := by
  unfold RawMsg.valueBlocks
  split
  case isTrue htyp => exact PsUnion.blocks_of_untyped h htyp
  case isFalse => rfl

/-- A value that can be read is that of the member stored last, or none by its type. -/
theorem RawMsg.loadValue_cases {v : PsValue} (h : msg.loadValue addr H = some v) :
    (takesArgument msg.flags ∧ msg.isType msg.value.typ ∧ msg.value.load addr H = some v ∧
      msg.valueBlocks = msg.value.blocks) ∨
    (¬ takesArgument msg.flags ∧ v = .nil ∧ msg.valueBlocks = [] ∧
      ∀ typ ∈ argumentTypes, msg.isType typ = false) := by
  unfold RawMsg.loadValue at h
  by_cases htakes : takesArgument msg.flags
  · rw [if_pos htakes] at h
    by_cases htyp : msg.isType msg.value.typ
    · rw [if_pos htyp] at h
      exact .inl ⟨htakes, htyp, h, if_pos htyp⟩
    · rw [if_neg htyp] at h
      cases h
  · rw [if_neg htakes] at h
    exact .inr ⟨htakes, (Option.some.inj h).symm, RawMsg.valueBlocks_of_untyped htakes,
      fun typ hmem => hasType_of_untyped htakes hmem⟩

/-! ### Blocks -/

theorem cstr_append_zero {l t : List UInt8} (h : cstr l = some t) : cstr (t ++ [0]) = some t := by
  unfold cstr at h ⊢
  split at h
  case isTrue =>
    have hall : ∀ c ∈ t, c ≠ 0 := by
      intro c hc
      rw [← Option.some.inj h] at hc
      simpa using List.mem_takeWhile_imp hc
    rw [if_pos (by simp), List.takeWhile_append_of_pos (by simpa using hall)]
    simp
  case isFalse => cases h

theorem strdup_spec {t : List UInt8} (h : textAt H b = some t) :
    ∃ H', strdup H (some b) = some (H.blocks.next, H') ∧ H.Changes [] 1 H' ∧
      textAt H' H.blocks.next = some t := by
  obtain ⟨l, hl, ht⟩ := Option.bind_eq_some_iff.mp h
  refine ⟨(H.alloc (t ++ [0])).2, by rw [strdup, Option.bind_eq_bind, Option.bind_some, h]; rfl,
    Heap.Changes.alloc H _, ?_⟩
  show ((H.blocks.alloc (t ++ [0])).get H.blocks.next).bind cstr = some t
  rw [Cells.get_alloc_self, Option.bind_some, cstr_append_zero ht]

/-- A copy of the bytes is read back whole. -/
theorem bytesAt_alloc {sz : UInt64} {l : List UInt8} (h : bytesAt H b sz = some l) :
    bytesAt (H.alloc l).2 H.blocks.next sz = some l := by
  obtain ⟨k, -, htake⟩ := Option.bind_eq_some_iff.mp h
  split at htake
  case isTrue hle =>
    have hlen : l.length = sz.toNat := by
      rw [← Option.some.inj htake, List.length_take, Nat.min_eq_left hle]
    show ((H.blocks.alloc l).get H.blocks.next).bind _ = _
    rw [Cells.get_alloc_self, Option.bind_some, if_pos hlen.ge, ← hlen, List.take_length]
  case isFalse => cases htake

theorem live_of_textAt {t : List UInt8} (h : textAt H b = some t) : (H.blocks.get b).isSome := by
  obtain ⟨l, hl, -⟩ := Option.bind_eq_some_iff.mp h
  rw [hl, Option.isSome_some]

theorem live_of_bytesAt {sz : UInt64} {l : List UInt8} (h : bytesAt H b sz = some l) :
    (H.blocks.get b).isSome := by
  obtain ⟨k, hk, -⟩ := Option.bind_eq_some_iff.mp h
  rw [hk, Option.isSome_some]

theorem live_of_text {p : Option BlockId} {t : Option Str} (h : textOf H p = some t) :
    ∀ x ∈ textBlock p, (H.blocks.get x.1).isSome := by
  intro x hx
  cases p with
  | none => cases hx
  | some b =>
    obtain rfl := List.mem_singleton.mp hx
    obtain ⟨l, hl, -⟩ := Option.map_eq_some_iff.mp h
    exact live_of_textAt hl

theorem PsUnion.live_of_load {u : PsUnion} {v : PsValue} (h : u.load addr H = some v) :
    ∀ x ∈ u.blocks, (H.blocks.get x.1).isSome := by
  intro x hx
  cases u with
  | str p =>
    cases p with
    | none => cases hx
    | some b =>
      obtain rfl := List.mem_singleton.mp hx
      obtain ⟨l, hl, -⟩ := Option.map_eq_some_iff.mp h
      exact live_of_textAt hl
  | buf p sz dtor =>
    cases p with
    | none => cases hx
    | some b =>
      obtain rfl := List.mem_singleton.mp hx
      obtain ⟨l, hl, -⟩ := Option.map_eq_some_iff.mp h
      exact live_of_bytesAt hl
  | err id p =>
    cases p with
    | none => cases hx
    | some b =>
      obtain rfl := List.mem_singleton.mp hx
      obtain ⟨l, hl, -⟩ := Option.map_eq_some_iff.mp h
      exact live_of_textAt hl
  | _ => cases hx

theorem live_of_value {v : PsValue} (h : msg.loadValue addr H = some v) :
    ∀ x ∈ msg.valueBlocks, (H.blocks.get x.1).isSome := by
  rcases RawMsg.loadValue_cases h with ⟨-, -, hload, hblocks⟩ | ⟨-, -, hblocks, -⟩
  · rw [hblocks]
    exact PsUnion.live_of_load hload
  · rw [hblocks]
    exact fun x hx => by cases hx

/-! ### What allocation leaves as it was -/

theorem textOf_of_alloc {n : ℕ} {p : Option BlockId} {t : Option Str} (hc : H.Changes [] n H')
    (h : textOf H p = some t) : textOf H' p = some t := by
  rw [← h]
  apply textOf_congr
  intro x hx
  exact hc.get_of_notMem (live_of_text h x hx) (by simp)

theorem loadValue_of_alloc {n : ℕ} {v : PsValue} (hc : H.Changes [] n H')
    (h : msg.loadValue addr H = some v) : msg.loadValue addr H' = some v := by
  rw [← h]
  apply RawMsg.loadValue_congr
  intro x hx
  exact hc.get_of_notMem (live_of_value h x hx) (by simp)

/-! ### Texts and values -/

/-- From `H` to `H'` a pointer to the text `t` was made, in `n` blocks of its own. -/
structure TextAt (H : Blocks) (n : ℕ) (H' : Blocks) (p : Option BlockId) (t : Option Str) :
    Prop where
  changes : H.Changes [] n H'
  text : textOf H' p = some t
  duties : ∀ b, duties (textBlock p) b = Heap.fresh H.blocks.next n b

/-- From `H` to `H'` the value `v` was stored in `msg`, in `n` blocks of its own and the
blocks `given`. -/
structure ValueAt (addr : BlockId → UInt64) (H : Blocks) (given : List (BlockId × Option PsDtor))
    (n : ℕ) (H' : Blocks) (msg : RawMsg) (v : PsValue) : Prop where
  changes : H.Changes [] n H'
  value : msg.loadValue addr H' = some v
  duties : ∀ b, duties msg.valueBlocks b = Heap.fresh H.blocks.next n b + duties given b
  loans : ∀ b, loans msg.valueBlocks b = loans given b

/-- A member that allocated nothing. -/
theorem ValueAt.same {given : List (BlockId × Option PsDtor)} {v : PsValue}
    (hvalue : msg.loadValue addr H = some v) (hblocks : msg.valueBlocks = given) :
    ValueAt addr H given 0 H msg v where
  changes := Heap.Changes.refl H
  value := hvalue
  duties b := by rw [hblocks, Heap.fresh_zero, Nat.zero_add]
  loans b := by rw [hblocks]

/-- A member that points to one new block. -/
theorem ValueAt.copy {v : PsValue} (hc : H.Changes [] 1 H')
    (hvalue : msg.loadValue addr H' = some v)
    (hblocks : msg.valueBlocks = [(H.blocks.next, some .free)]) :
    ValueAt addr H [] 1 H' msg v where
  changes := hc
  value := hvalue
  duties b := by
    rw [hblocks, duties_singleton, Heap.fresh_one]
    simp
  loans b := by
    rw [hblocks, loans_singleton]
    simp

/-- A member of the type that the flags say. -/
theorem RawMsg.loadValue_typed {u : PsUnion} (htakes : takesArgument msg.flags)
    (htyp : msg.isType u.typ) : RawMsg.loadValue addr H { msg with value := u } = u.load addr H :=
  (if_pos htakes).trans (if_pos htyp)

theorem RawMsg.valueBlocks_typed {u : PsUnion} (htyp : msg.isType u.typ) :
    RawMsg.valueBlocks { msg with value := u } = u.blocks := if_pos htyp

/-- A member of text type, with a copy of a text. -/
theorem ValueAt.text (f : Option BlockId → PsUnion) (g : Str → PsValue) {l : List UInt8}
    (htakes : takesArgument msg.flags) (htyp : ∀ p, msg.isType (f p).typ)
    (hload : ∀ H b, (f (some b)).load addr H = (textAt H b).map fun l => g (toStr l))
    (hblocks : ∀ b, (f (some b)).blocks = [(b, some .free)]) (hl : textAt H b = some l) :
    ∃ H', strdup H (some b) = some (H.blocks.next, H') ∧
      ValueAt addr H [] 1 H' { msg with value := f (some H.blocks.next) } (g (toStr l)) := by
  obtain ⟨H', hdup, hc, hread⟩ := strdup_spec hl
  refine ⟨H', hdup, .copy hc ?_ ?_⟩
  · rw [RawMsg.loadValue_typed htakes (htyp _), hload, hread, Option.map_some]
  · rw [RawMsg.valueBlocks_typed (htyp _), hblocks]

theorem free_spec {p : Option BlockId} (h : ∀ x ∈ textBlock p, (H.blocks.get x.1).isSome) :
    ∃ H', free H p = some H' ∧ H.Changes (disposals (textBlock p)) 0 H' := by
  cases p with
  | none => exact ⟨H, rfl, Heap.Changes.refl H⟩
  | some b =>
    obtain ⟨H', hrelease⟩ := Heap.release_of_live (r := PsDtor.free) (h _ (List.mem_singleton_self _))
    exact ⟨H', hrelease, Heap.Changes.release hrelease⟩

/-- `strdup` of a copied pointer. -/
theorem dupText_spec {p : Option BlockId} {t : Option Str} (h : textOf H p = some t) :
    ∃ q H' n, RawMsg.dupText H p = some (q, H') ∧ TextAt H n H' q t := by
  cases p with
  | none => exact ⟨none, H, 0, rfl, Heap.Changes.refl H, h, fun b => by simp [textBlock]⟩
  | some b =>
    obtain ⟨l, hl, ht⟩ := Option.map_eq_some_iff.mp h
    obtain ⟨H', hdup, hc, hnew⟩ := strdup_spec hl
    refine ⟨some H.blocks.next, H', 1, ?_, hc, ?_, fun c => ?_⟩
    · rw [RawMsg.dupText, hdup, Option.map_some]
    · rw [textOf, hnew, Option.map_some, ht]
    · rw [textBlock, duties_singleton, Heap.fresh_one]
      simp

/-- The old text goes, a copy of the new one comes. -/
theorem setText_spec {old new : Option BlockId} {t : Option Str}
    (hold : ∀ x ∈ textBlock old, (H.blocks.get x.1).isSome) (hnew : textOf H new = some t)
    (hne : ∀ x ∈ textBlock old, ∀ y ∈ textBlock new, x.1 ≠ y.1) :
    ∃ q H₁ H' n, RawMsg.setText H old new = some (q, H') ∧
      H.Changes (disposals (textBlock old)) 0 H₁ ∧ TextAt H₁ n H' q t := by
  obtain ⟨H₁, hfree, hc⟩ := free_spec hold
  have hkept : textOf H₁ new = some t := by
    rw [← hnew]
    apply textOf_congr
    intro y hy
    refine hc.get_of_notMem (live_of_text hnew y hy) fun x hx => ?_
    exact hne _ (mem_disposals.mp hx) y hy
  obtain ⟨q, H', n, hdup, ht⟩ := dupText_spec hkept
  refine ⟨q, H₁, H', n, ?_, hc, ht⟩
  rw [RawMsg.setText, hfree, Option.bind_eq_bind, Option.bind_some, hdup]

/-- The value is released by the type bits. -/
theorem releaseValue_spec {v : PsValue} (h : msg.loadValue addr H = some v) :
    ∃ H', RawMsg.releaseValue H msg = some H' ∧ H.Changes (disposals msg.valueBlocks) 0 H' := by
  have hlive := live_of_value h
  unfold RawMsg.releaseValue
  rcases RawMsg.loadValue_cases h with ⟨-, htyp, hload, hblocks⟩ | ⟨-, -, hblocks, hnone⟩
  · have hother := hasType_eq htyp
    rw [hblocks] at hlive ⊢
    unfold RawMsg.isType
    cases hv : msg.value with
    | zero =>
      rw [hv] at hload
      cases hload
    | str p =>
      rw [hv] at hlive hother hload
      rw [hother, hother, hother]
      cases p with
      | none => cases hload
      | some b => exact free_spec (p := some b) hlive
    | buf p sz dtor =>
      rw [hv] at hlive hother hload
      rw [hother, hother, hother]
      cases p with
      | none => cases hload
      | some b =>
        cases dtor with
        | none => exact ⟨H, rfl, Heap.Changes.refl H⟩
        | some dtor =>
          obtain ⟨H', hrelease⟩ := Heap.release_of_live (r := dtor)
            (hlive _ (List.mem_singleton_self _))
          exact ⟨H', hrelease, Heap.Changes.release hrelease⟩
    | err id p =>
      rw [hv] at hlive hother hload
      rw [hother, hother, hother]
      cases p with
      | none => cases hload
      | some b => exact free_spec (p := some b) hlive
    | _ =>
      rw [hv] at hother
      rw [hother, hother, hother]
      exact ⟨H, rfl, Heap.Changes.refl H⟩
  · rw [hnone _ (by decide), hnone _ (by decide), hnone _ (by decide), hblocks]
    exact ⟨H, rfl, Heap.Changes.refl H⟩

/-- A text is stored as a copy, a buffer as it is. -/
theorem PsUnion.store_spec {args : PsUnion} {v : PsValue} (htakes : takesArgument msg.flags)
    (htyp : msg.isType args.typ) (h : args.load addr H = some v) :
    ∃ u H' n, args.store H = some (u, H') ∧
      ValueAt addr H args.given n H' { msg with value := u } v := by
  have hsame : ValueAt addr H args.blocks 0 H { msg with value := args } v :=
    .same ((RawMsg.loadValue_typed htakes htyp).trans h) (RawMsg.valueBlocks_typed htyp)
  cases args with
  | str p =>
    cases p with
    | none => cases h
    | some b =>
      obtain ⟨l, hl, rfl⟩ := Option.map_eq_some_iff.mp h
      obtain ⟨H', hdup, hv⟩ := ValueAt.text .str .str htakes (fun _ => htyp) (fun _ _ => rfl)
        (fun _ => rfl) hl
      exact ⟨.str (some H.blocks.next), H', 1, by rw [PsUnion.store, hdup, Option.map_some], hv⟩
  | err id p =>
    cases p with
    | none => cases h
    | some b =>
      obtain ⟨l, hl, rfl⟩ := Option.map_eq_some_iff.mp h
      obtain ⟨H', hdup, hv⟩ := ValueAt.text (.err id) (.err id) htakes (fun _ => htyp)
        (fun _ _ => rfl) (fun _ => rfl) hl
      exact ⟨.err id (some H.blocks.next), H', 1, by rw [PsUnion.store, hdup, Option.map_some], hv⟩
  | buf p sz dtor =>
    cases p with
    | none => cases h
    | some b => exact ⟨_, H, 0, rfl, hsame⟩
  | _ => exact ⟨_, H, 0, rfl, hsame⟩

/-- What the arguments are for the type bits. -/
def argumentValue (addr : BlockId → UInt64) (H : Blocks) (flags : UInt32) (args : PsUnion) :
    Option PsValue :=
  if takesArgument flags then if hasType flags args.typ then args.load addr H else none
  else some .nil

/-- The blocks that are read for the type bits. -/
def argumentBlocks (flags : UInt32) (args : PsUnion) : List (BlockId × Option PsDtor) :=
  if takesArgument flags then args.blocks else []

/-- The blocks that the message takes for the type bits. -/
def givenBlocks (flags : UInt32) (args : PsUnion) : List (BlockId × Option PsDtor) :=
  if takesArgument flags then args.given else []

/-- The old value is released by the old type, the new one is stored by the new type. -/
theorem psMsgSetVvalue_spec {flags : UInt32} {args : PsUnion} {v : PsValue}
    (hrelease : RawMsg.releaseValue H msg = some H₁)
    (hargs : argumentValue addr H₁ flags args = some v) :
    ∃ u H' n, RawMsg.psMsgSetVvalue H msg flags args =
        some ({ msg with flags := valueFlags msg.flags flags, value := u }, H') ∧
      ValueAt addr H₁ (givenBlocks flags args) n H'
        { msg with flags := valueFlags msg.flags flags, value := u } v := by
  have hset : RawMsg.psMsgSetVvalue H msg flags args =
      if takesArgument flags then
        if hasType flags args.typ then (args.store H₁).map fun x =>
          ({ msg with flags := valueFlags msg.flags flags, value := x.1 }, x.2)
        else none
      else some ({ msg with flags := valueFlags msg.flags flags }, H₁) := by
    rw [← takesArgument_valueFlags msg.flags, ← hasType_valueFlags msg.flags]
    unfold RawMsg.psMsgSetVvalue RawMsg.psMsgFreeValue
    rw [hrelease]
    show (if _ then if _ then (args.store H₁).bind _ else none else _) = _
    cases args.store H₁ <;> rfl
  unfold argumentValue at hargs
  unfold givenBlocks
  have htakes' := takesArgument_valueFlags msg.flags flags
  have htyp' := hasType_valueFlags msg.flags flags
  rw [hset]
  by_cases htakes : takesArgument flags
  · rw [if_pos htakes] at hargs
    rw [if_pos htakes, if_pos htakes]
    by_cases htyp : hasType flags args.typ
    · rw [if_pos htyp] at hargs
      rw [if_pos htyp]
      have htakes'' : takesArgument (valueFlags msg.flags flags) := htakes'.trans htakes
      obtain ⟨u, H', n, hstore, hv⟩ := @PsUnion.store_spec addr H₁
        { msg with flags := valueFlags msg.flags flags } args v htakes'' ((htyp' _).trans htyp) hargs
      exact ⟨u, H', n, by rw [hstore, Option.map_some], hv⟩
    · rw [if_neg htyp] at hargs
      cases hargs
  · rw [if_neg htakes] at hargs
    rw [if_neg htakes, if_neg htakes]
    have huntyped : ¬ takesArgument (valueFlags msg.flags flags) := htakes'.symm ▸ htakes
    refine ⟨msg.value, H₁, 0, rfl, .same ((if_neg huntyped).trans hargs) ?_⟩
    exact @RawMsg.valueBlocks_of_untyped { msg with flags := valueFlags msg.flags flags } huntyped

/-- The same value in memory of the message's own: a buffer that `free` releases. -/
def ownValue : PsValue → PsValue
  | .buf bytes _ => .buf bytes (some .free)
  | v => v

/-- The pointers of the copied union are replaced by its type. -/
theorem dupValue_spec {v : PsValue} (h : msg.loadValue addr H = some v) :
    ∃ u H' n, RawMsg.dupValue H msg = some (u, H') ∧
      ValueAt addr H [] n H' { msg with value := u } (ownValue v) := by
  unfold RawMsg.dupValue
  rcases RawMsg.loadValue_cases h with ⟨htakes, htyp, hload, hblocks⟩ | ⟨-, rfl, hblocks, hnone⟩
  · have hother := hasType_eq htyp
    unfold RawMsg.isType
    cases hv : msg.value with
    | zero =>
      rw [hv] at hload
      cases hload
    | str p =>
      rw [hv] at hother hload htyp
      rw [hother, hother, hother]
      cases p with
      | none => cases hload
      | some b =>
        obtain ⟨l, hl, rfl⟩ := Option.map_eq_some_iff.mp hload
        obtain ⟨H', hdup, hv'⟩ := ValueAt.text .str .str htakes (fun _ => htyp) (fun _ _ => rfl)
          (fun _ => rfl) hl
        refine ⟨.str (some H.blocks.next), H', 1, ?_, hv'⟩
        show (RawMsg.dupText H (some b)).bind _ = _
        rw [RawMsg.dupText, hdup, Option.map_some, Option.bind_some]
    | buf p sz dtor =>
      rw [hv] at hother hload htyp
      rw [hother, hother, hother]
      cases p with
      | none => cases hload
      | some b =>
        obtain ⟨l, hl, rfl⟩ := Option.map_eq_some_iff.mp hload
        have htyp' : msg.isType (PsUnion.buf (some H.blocks.next) sz (some .free)).typ := htyp
        refine ⟨.buf (some H.blocks.next) sz (some .free), (H.alloc l).2, 1, ?_,
          .copy (Heap.Changes.alloc H l) ?_ (RawMsg.valueBlocks_typed htyp')⟩
        · show (bytesAt H b sz).bind _ = _
          rw [hl, Option.bind_some]
          rfl
        · rw [RawMsg.loadValue_typed htakes htyp', PsUnion.load, Option.bind_some,
            bytesAt_alloc hl, Option.map_some]
          rfl
    | err id p =>
      rw [hv] at hother hload htyp
      rw [hother, hother, hother]
      cases p with
      | none => cases hload
      | some b =>
        obtain ⟨l, hl, rfl⟩ := Option.map_eq_some_iff.mp hload
        obtain ⟨H', hdup, hv'⟩ := ValueAt.text (.err id) (.err id) htakes (fun _ => htyp)
          (fun _ _ => rfl) (fun _ => rfl) hl
        refine ⟨.err id (some H.blocks.next), H', 1, ?_, hv'⟩
        show (RawMsg.dupText H (some b)).bind _ = _
        rw [RawMsg.dupText, hdup, Option.map_some, Option.bind_some]
    | _ =>
      rw [hv] at hother hload hblocks
      rw [hother, hother, hother]
      cases hload
      refine ⟨_, H, 0, rfl, .same ?_ ?_⟩
      · rw [← hv]
        exact h
      · rw [← hv]
        exact hblocks
  · rw [hnone _ (by decide), hnone _ (by decide), hnone _ (by decide)]
    exact ⟨msg.value, H, 0, rfl, .same h hblocks⟩

/-! ### Messages -/

/-- From `H` to `H'` the message that held the blocks `old` became `msg`, which says `m`:
`out` was released, `n` blocks were allocated, and `msg` took the blocks `given`. -/
structure MessageAt (addr : BlockId → UInt64) (H : Blocks) (old : List (BlockId × Option PsDtor))
    (out : List (BlockId × PsDtor)) (given : List (BlockId × Option PsDtor)) (n : ℕ) (H' : Blocks)
    (msg : RawMsg) (m : PsMsg) : Prop where
  changes : H.Changes out n H'
  load : msg.load addr H' = some m
  out_le : ∀ b, Heap.count out b ≤ duties old b
  duties : ∀ b, duties msg.blocks b + Heap.count out b =
    duties old b + Heap.fresh H.blocks.next n b + duties given b
  loans : ∀ b, loans msg.blocks b ≤ loans old b + loans given b

theorem duties_blocks (msg : RawMsg) (b : BlockId) : duties msg.blocks b =
    duties (textBlock msg.topic) b + duties (textBlock msg.rtopic) b + duties msg.valueBlocks b := by
  rw [RawMsg.blocks, duties_append, duties_append]

theorem loans_blocks (msg : RawMsg) (b : BlockId) : loans msg.blocks b = loans msg.valueBlocks b := by
  rw [RawMsg.blocks, loans_append, loans_append, loans_textBlock, loans_textBlock, Nat.zero_add]

theorem argumentValue_congr {flags : UInt32} {args : PsUnion}
    (h : ∀ x ∈ argumentBlocks flags args, H'.blocks.get x.1 = H.blocks.get x.1) :
    argumentValue addr H' flags args = argumentValue addr H flags args := by
  unfold argumentValue
  unfold argumentBlocks at h
  split
  case isTrue htakes =>
    rw [if_pos htakes] at h
    rw [PsUnion.load_congr h]
  case isFalse => rfl

theorem live_of_argument {flags : UInt32} {args : PsUnion} {v : PsValue}
    (h : argumentValue addr H flags args = some v) :
    ∀ x ∈ argumentBlocks flags args, (H.blocks.get x.1).isSome := by
  unfold argumentValue at h
  unfold argumentBlocks
  split
  case isTrue htakes =>
    rw [if_pos htakes] at h
    split at h
    case isTrue => exact PsUnion.live_of_load h
    case isFalse => cases h
  case isFalse => simp

theorem argumentValue_of_alloc {n : ℕ} {flags : UInt32} {args : PsUnion} {v : PsValue}
    (hc : H.Changes [] n H') (h : argumentValue addr H flags args = some v) :
    argumentValue addr H' flags args = some v := by
  rw [← h]
  apply argumentValue_congr
  intro x hx
  exact hc.get_of_notMem (live_of_argument h x hx) (by simp)

/-- The union of a new message holds nothing that could be released. -/
theorem releaseValue_zero (h : msg.value = .zero) : RawMsg.releaseValue H msg = some H := by
  unfold RawMsg.releaseValue
  rw [h]
  split_ifs <;> rfl

theorem psNewMsg_spec {topic : BlockId} {t : Str} {flags : UInt32} {args : PsUnion} {v : PsValue}
    (htopic : textOf H (some topic) = some (some t))
    (hargs : argumentValue addr H flags args = some v) :
    ∃ msg H' n, RawMsg.psNewMsg H topic flags args = some (msg, H') ∧
      MessageAt addr H [] [] (givenBlocks flags args) n H' msg
        { ref := 1, topic := some t, rtopic := none, flags := valueFlags flags flags,
          priority := 0, value := v } := by
  obtain ⟨q, H₁, n₁, hdup, ht⟩ := dupText_spec htopic
  obtain ⟨⟨b, H₂⟩, hstrdup, heq⟩ := Option.map_eq_some_iff.mp hdup
  cases heq
  obtain ⟨u, H', n, hset, hv⟩ := psMsgSetVvalue_spec
    (@releaseValue_zero H₁ { ref := 1, topic := some b, rtopic := none, flags := flags,
                             priority := 0, value := .zero } rfl)
    (argumentValue_of_alloc ht.changes hargs)
  refine ⟨{ ref := 1, topic := some b, rtopic := none, flags := valueFlags flags flags,
            priority := 0, value := u }, H', n₁ + n, ?_, ht.changes.trans_alloc hv.changes, ?_, fun _ => le_rfl, fun c => ?_, fun c => ?_⟩
  · rw [RawMsg.psNewMsg, hstrdup, Option.bind_eq_bind, Option.bind_some]
    exact hset
  · exact RawMsg.load_eq_some.mpr ⟨rfl, textOf_of_alloc hv.changes ht.text, rfl, rfl, rfl, hv.value⟩
  · rw [duties_blocks, hv.duties, ht.duties, ht.changes.next, Heap.fresh_add]
    simp [textBlock]
    omega
  · rw [loans_blocks, hv.loans]
    exact Nat.le_add_left _ _

theorem psDupMsg_spec {m : PsMsg} (h : msg.load addr H = some m) :
    ∃ msg' H' n, RawMsg.psDupMsg H msg = some (msg', H') ∧
      MessageAt addr H [] [] [] n H' msg' { m with ref := 1, value := ownValue m.value } := by
  obtain ⟨-, htopic, hrtopic, hflags, hpriority, hvalue⟩ := RawMsg.load_eq_some.mp h
  obtain ⟨q₁, H₁, n₁, hdup₁, h₁⟩ := dupText_spec htopic
  obtain ⟨q₂, H₂, n₂, hdup₂, h₂⟩ := dupText_spec (textOf_of_alloc h₁.changes hrtopic)
  have hc := h₁.changes.trans_alloc h₂.changes
  obtain ⟨u, H', n, hdup, hv⟩ := dupValue_spec (loadValue_of_alloc hc hvalue)
  refine ⟨{ msg with ref := 1, topic := q₁, rtopic := q₂, value := u }, H', n₁ + n₂ + n, ?_, hc.trans_alloc hv.changes, ?_, fun _ => le_rfl, fun c => ?_, fun c => ?_⟩
  · rw [RawMsg.psDupMsg, hdup₁, Option.bind_eq_bind, Option.bind_some]
    show (RawMsg.dupText H₁ msg.rtopic).bind _ = _
    rw [hdup₂, Option.bind_some]
    show (RawMsg.dupValue H₂ msg).bind _ = _
    rw [hdup]
    rfl
  · refine RawMsg.load_eq_some.mpr ⟨rfl, ?_, ?_, hflags, hpriority, hv.value⟩
    · exact textOf_of_alloc (h₂.changes.trans_alloc hv.changes) h₁.text
    · exact textOf_of_alloc hv.changes h₂.text
  · have hduties := hv.duties c
    rw [duties_nil, hc.next] at hduties
    rw [duties_blocks, h₁.duties, h₂.duties, h₁.changes.next, Heap.fresh_add, Heap.fresh_add]
    show _ + _ + duties (RawMsg.valueBlocks { msg with value := u }) c + _ = _
    rw [hduties]
    simp
  · rw [loans_blocks]
    exact (hv.loans c).le

/-- No block is held twice. -/
def Separate (l : List (BlockId × Option PsDtor)) : Prop := (l.map Prod.fst).Nodup

theorem Separate.ne {l l' : List (BlockId × Option PsDtor)} (h : Separate (l ++ l')) :
    ∀ x ∈ l, ∀ y ∈ l', x.1 ≠ y.1 := by
  unfold Separate at h
  rw [List.map_append, List.nodup_append] at h
  exact fun x hx y hy => h.2.2 _ (List.mem_map_of_mem hx) _ (List.mem_map_of_mem hy)

theorem Separate.left {l l' : List (BlockId × Option PsDtor)} (h : Separate (l ++ l')) :
    Separate l := by
  unfold Separate at h ⊢
  rw [List.map_append, List.nodup_append] at h
  exact h.1

/-- Blocks apart from those released, before and after some allocations. -/
theorem get_of_apart {n : ℕ} {l l' : List (BlockId × Option PsDtor)}
    (hc : H.Changes (disposals l) n H') (hlive : ∀ x ∈ l', (H.blocks.get x.1).isSome)
    (hne : ∀ x ∈ l, ∀ y ∈ l', x.1 ≠ y.1) : ∀ y ∈ l', H'.blocks.get y.1 = H.blocks.get y.1 :=
  fun y hy => hc.get_of_notMem (hlive y hy) fun _ hx => hne _ (mem_disposals.mp hx) y hy

theorem psMsgSetTopic_spec {m : PsMsg} {topic : Option BlockId} {t : Option Str}
    (h : msg.load addr H = some m) (hsep : Separate msg.blocks) (htopic : textOf H topic = some t)
    (hne : ∀ x ∈ msg.blocks, ∀ y ∈ textBlock topic, x.1 ≠ y.1) :
    ∃ msg' H' n, RawMsg.psMsgSetTopic H msg topic = some (msg', H') ∧
      MessageAt addr H msg.blocks (disposals (textBlock msg.topic)) [] n H' msg'
        { m with topic := t } := by
  obtain ⟨href, ht, hr, hflags, hpriority, hvalue⟩ := RawMsg.load_eq_some.mp h
  unfold RawMsg.blocks at hsep hne
  have hrtopic := hsep.left.ne
  rw [List.append_assoc] at hsep
  obtain ⟨q, H₁, H', n, hset, hfree, hnew⟩ := setText_spec (live_of_text ht) htopic
    fun x hx => hne x (List.mem_append_left _ (List.mem_append_left _ hx))
  have hc := hfree.trans_alloc hnew.changes
  refine ⟨{ msg with topic := q }, H', 0 + n, ?_, hc, ?_, fun b => ?_, fun b => ?_, fun b => ?_⟩
  · rw [RawMsg.psMsgSetTopic, hset, Option.map_some]
  · refine RawMsg.load_eq_some.mpr ⟨href, hnew.text, ?_, hflags, hpriority, ?_⟩
    · rw [← hr]
      exact textOf_congr (get_of_apart hc (live_of_text hr) hrtopic)
    · rw [← hvalue]
      exact RawMsg.loadValue_congr (get_of_apart hc (live_of_value hvalue)
        fun x hx y hy => hsep.ne x hx y (List.mem_append_right _ hy))
  · rw [duties_blocks]
    show duties (textBlock msg.topic) b ≤ _
    omega
  · have hduties := hnew.duties b
    rw [hfree.next, Nat.add_zero] at hduties
    rw [duties_blocks, duties_blocks, Nat.zero_add, hduties, duties_nil]
    show _ + duties (textBlock msg.rtopic) b + duties msg.valueBlocks b +
      duties (textBlock msg.topic) b = _
    omega
  · rw [loans_blocks, loans_blocks]
    exact Nat.le_add_right _ _

theorem psMsgSetRtopic_spec {m : PsMsg} {rtopic : Option BlockId} {t : Option Str}
    (h : msg.load addr H = some m) (hsep : Separate msg.blocks)
    (hrtopic : textOf H rtopic = some t)
    (hne : ∀ x ∈ msg.blocks, ∀ y ∈ textBlock rtopic, x.1 ≠ y.1) :
    ∃ msg' H' n, RawMsg.psMsgSetRtopic H msg rtopic = some (msg', H') ∧
      MessageAt addr H msg.blocks (disposals (textBlock msg.rtopic)) [] n H' msg'
        { m with rtopic := t } := by
  obtain ⟨href, ht, hr, hflags, hpriority, hvalue⟩ := RawMsg.load_eq_some.mp h
  unfold RawMsg.blocks at hsep hne
  have htopic := hsep.left.ne
  obtain ⟨q, H₁, H', n, hset, hfree, hnew⟩ := setText_spec (live_of_text hr) hrtopic
    fun x hx => hne x (List.mem_append_left _ (List.mem_append_right _ hx))
  have hc := hfree.trans_alloc hnew.changes
  refine ⟨{ msg with rtopic := q }, H', 0 + n, ?_, hc, ?_, fun b => ?_, fun b => ?_, fun b => ?_⟩
  · rw [RawMsg.psMsgSetRtopic, hset, Option.map_some]
  · refine RawMsg.load_eq_some.mpr ⟨href, ?_, hnew.text, hflags, hpriority, ?_⟩
    · rw [← ht]
      exact textOf_congr (get_of_apart hc (live_of_text ht)
        fun x hx y hy => (htopic y hy x hx).symm)
    · rw [← hvalue]
      exact RawMsg.loadValue_congr (get_of_apart hc (live_of_value hvalue)
        fun x hx => hsep.ne x (List.mem_append_right _ hx))
  · rw [duties_blocks]
    show duties (textBlock msg.rtopic) b ≤ _
    omega
  · have hduties := hnew.duties b
    rw [hfree.next, Nat.add_zero] at hduties
    rw [duties_blocks, duties_blocks, Nat.zero_add, hduties, duties_nil]
    show duties (textBlock msg.topic) b + _ + duties msg.valueBlocks b +
      duties (textBlock msg.rtopic) b = _
    omega
  · rw [loans_blocks, loans_blocks]
    exact Nat.le_add_right _ _

theorem psMsgSetValue_spec {m : PsMsg} {flags : UInt32} {args : PsUnion} {v : PsValue}
    (h : msg.load addr H = some m) (hsep : Separate msg.blocks)
    (hargs : argumentValue addr H flags args = some v)
    (hne : ∀ x ∈ msg.blocks, ∀ y ∈ argumentBlocks flags args, x.1 ≠ y.1) :
    ∃ msg' H' n, RawMsg.psMsgSetVvalue H msg flags args = some (msg', H') ∧
      MessageAt addr H msg.blocks (disposals msg.valueBlocks) (givenBlocks flags args) n H' msg'
        { m with flags := valueFlags m.flags flags, value := v } := by
  obtain ⟨href, ht, hr, hflags, hpriority, hvalue⟩ := RawMsg.load_eq_some.mp h
  unfold RawMsg.blocks at hsep hne
  obtain ⟨H₁, hrelease, hfree⟩ := releaseValue_spec hvalue
  have hkept : argumentValue addr H₁ flags args = some v := by
    rw [← hargs]
    exact argumentValue_congr (get_of_apart hfree (live_of_argument hargs)
      fun x hx => hne x (List.mem_append_right _ hx))
  obtain ⟨u, H', n, hset, hv⟩ := psMsgSetVvalue_spec hrelease hkept
  have hc := hfree.trans_alloc hv.changes
  refine ⟨{ msg with flags := valueFlags msg.flags flags, value := u }, H', 0 + n, hset, hc, ?_,
    fun b => ?_, fun b => ?_, fun b => ?_⟩
  · rw [hflags]
    refine RawMsg.load_eq_some.mpr ⟨href, ?_, ?_, rfl, hpriority, hv.value⟩
    · rw [← ht]
      exact textOf_congr (get_of_apart hc (live_of_text ht)
        fun x hx y hy => (hsep.ne y (List.mem_append_left _ hy) x hx).symm)
    · rw [← hr]
      exact textOf_congr (get_of_apart hc (live_of_text hr)
        fun x hx y hy => (hsep.ne y (List.mem_append_right _ hy) x hx).symm)
  · rw [duties_blocks]
    show duties msg.valueBlocks b ≤ _
    omega
  · have hduties := hv.duties b
    rw [hfree.next, Nat.add_zero] at hduties
    rw [duties_blocks, duties_blocks, Nat.zero_add, hduties]
    show duties (textBlock msg.topic) b + duties (textBlock msg.rtopic) b + _ +
      duties msg.valueBlocks b = _
    omega
  · rw [loans_blocks, loans_blocks, hv.loans]
    exact Nat.le_add_left _ _

/-- With its last reference a message releases all it holds. -/
theorem release_spec {m : PsMsg} (h : msg.load addr H = some m) (hsep : Separate msg.blocks) :
    ∃ H', RawMsg.release H msg = some H' ∧ H.Changes (disposals msg.blocks) 0 H' := by
  obtain ⟨-, ht, hr, -, -, hvalue⟩ := RawMsg.load_eq_some.mp h
  unfold RawMsg.blocks at hsep
  have hrtopic := live_of_text hr
  obtain ⟨H₁, hfree₁, hc₁⟩ := free_spec (live_of_text ht)
  have hkept := get_of_apart hc₁ hrtopic hsep.left.ne
  obtain ⟨H₂, hfree₂, hc₂⟩ := @free_spec H₁ msg.rtopic fun x hx => by
    rw [hkept x hx]
    exact hrtopic x hx
  have hc := hc₁.trans hc₂ fun x hx =>
    let ⟨_, hl⟩ := Option.isSome_iff_exists.mp (hrtopic _ (mem_disposals.mp hx))
    Cells.lt_next hl
  rw [← disposals_append] at hc
  have hlive := live_of_value hvalue
  have hsame : msg.loadValue addr H₂ = some m.value := by
    rw [← hvalue]
    exact RawMsg.loadValue_congr (get_of_apart hc hlive hsep.ne)
  obtain ⟨H', hrelease, hc₃⟩ := releaseValue_spec hsame
  refine ⟨H', ?_, ?_⟩
  · rw [RawMsg.release, hfree₁, Option.bind_eq_bind, Option.bind_some]
    show (free H₁ msg.rtopic).bind _ = _
    rw [hfree₂, Option.bind_some]
    show ((RawMsg.releaseValue H₂ msg).bind _).bind _ = _
    rw [hrelease]
    rfl
  · have := hc.trans hc₃ fun x hx =>
      let ⟨_, hl⟩ := Option.isSome_iff_exists.mp (hlive _ (mem_disposals.mp hx))
      Cells.lt_next hl
    rwa [← disposals_append] at this

end PubSub
