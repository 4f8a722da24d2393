import PubSub.Memory.Ledger

/-! What a call does to the messages and to the account of the blocks. -/

namespace PubSub

open Lib

namespace Memory

variable {addr : BlockId → UInt64} {M M' : Memory} {mine : BlockId → Bool} {i : MsgId}
  {n : ℕ} {out : List (BlockId × PsDtor)} {given : List (BlockId × Option PsDtor)} {b : BlockId}
  {flags : UInt32} {args : PsUnion} {p : Option BlockId}

/-! ### Arguments -/

/-- A live block that no message owns is a client's. -/
theorem Ledger.mine_of_live (hl : M.Ledger mine) (hlive : (M.heap.blocks.get b).isSome)
    (hown : M.owners b = 0) : mine b = true := by
  have hone := hl.one b
  have hsound := hl.sound b
  have hb := Heap.live_eq_one.mpr hlive
  have hmax := allocated_le M.heap b
  rw [owners_eq] at hown
  cases hm : mine b with
  | true => rfl
  | false =>
    rw [hm, Bool.toNat_false] at hone
    omega

theorem textOk_spec (h : M.textOk p) :
    (∃ t, textOf M.heap p = some t) ∧ ∀ x ∈ textBlock p, M.owners x.1 = 0 := by
  cases p with
  | none => exact ⟨⟨none, rfl⟩, fun x hx => by cases hx⟩
  | some b =>
    simp only [textOk, Option.all_some, Bool.and_eq_true, decide_eq_true_eq] at h
    obtain ⟨t, ht⟩ := Option.isSome_iff_exists.mp h.1
    refine ⟨⟨some (toStr t), by rw [textOf, ht, Option.map_some]⟩, fun x hx => ?_⟩
    obtain rfl := List.mem_singleton.mp hx
    exact h.2

theorem argsOk_spec (addr : BlockId → UInt64) (h : M.argsOk flags args) :
    (∃ v, argumentValue addr M.heap flags args = some v) ∧
      ∀ x ∈ argumentBlocks flags args, M.owners x.1 = 0 := by
  unfold argumentValue argumentBlocks
  unfold argsOk at h
  by_cases htakes : takesArgument flags
  · rw [if_pos htakes, if_pos htakes]
    rw [htakes, Bool.not_true, Bool.false_or, Bool.and_eq_true] at h
    obtain ⟨htyp, h⟩ := h
    rw [if_pos htyp]
    have htext : ∀ p : Option BlockId, (p.isSome && M.textOk p) = true →
        ∃ b t, p = some b ∧ textAt M.heap b = some t ∧ M.owners b = 0 := by
      intro p hp
      cases p with
      | none => cases hp
      | some b =>
        simp only [textOk, Option.isSome_some, Option.all_some, Bool.true_and, Bool.and_eq_true,
          decide_eq_true_eq] at hp
        obtain ⟨t, ht⟩ := Option.isSome_iff_exists.mp hp.1
        exact ⟨b, t, rfl, ht, hp.2⟩
    cases args with
    | zero => exact absurd (mem_argumentTypes htakes htyp) (by decide)
    | str p =>
      obtain ⟨b, t, rfl, ht, hown⟩ := htext p h
      refine ⟨⟨.str (toStr t), by rw [PsUnion.load, Option.bind_some, ht, Option.map_some]⟩,
        fun x hx => ?_⟩
      obtain rfl := List.mem_singleton.mp hx
      exact hown
    | err id p =>
      obtain ⟨b, t, rfl, ht, hown⟩ := htext p h
      refine ⟨⟨.err id (toStr t), by rw [PsUnion.load, Option.bind_some, ht, Option.map_some]⟩,
        fun x hx => ?_⟩
      obtain rfl := List.mem_singleton.mp hx
      exact hown
    | buf p sz dtor =>
      cases p with
      | none => cases h
      | some b =>
        simp only [Option.any_some, Bool.and_eq_true, decide_eq_true_eq] at h
        obtain ⟨l, hl⟩ := Option.isSome_iff_exists.mp h.1
        refine ⟨⟨.buf l dtor, by rw [PsUnion.load, Option.bind_some, hl, Option.map_some]⟩,
          fun x hx => ?_⟩
        obtain rfl := List.mem_singleton.mp hx
        exact h.2
    | _ => exact ⟨⟨_, rfl⟩, fun x hx => by cases hx⟩
  · rw [if_neg htakes, if_neg htakes]
    exact ⟨⟨.nil, rfl⟩, fun x hx => by cases hx⟩

/-- At most one block is handed over, one that is read. -/
theorem givenBlocks_cases (flags : UInt32) (args : PsUnion) : givenBlocks flags args = [] ∨
    ∃ x, givenBlocks flags args = [x] ∧ x ∈ argumentBlocks flags args := by
  unfold givenBlocks argumentBlocks
  split
  · cases args with
    | buf p sz dtor =>
      cases p with
      | none => exact .inl rfl
      | some b => exact .inr ⟨(b, dtor), rfl, List.mem_singleton_self _⟩
    | _ => exact .inl rfl
  · exact .inl rfl

/-- What is handed over was a client's, and in no message. -/
theorem Ledger.given_le (hl : M.Ledger mine) (h : M.argsOk flags args) (b : BlockId) :
    duties (givenBlocks flags args) b + loans (givenBlocks flags args) b + M.lent b ≤
      (mine b).toNat := by
  have hlent := hl.lent b
  rw [← count_blocks]
  rcases givenBlocks_cases flags args with hnil | ⟨x, hx, hmem⟩
  · rw [hnil, List.countP_nil]
    omega
  · obtain ⟨⟨v, hv⟩, hown⟩ := argsOk_spec (fun _ => 0) h
    rw [hx, List.countP_singleton]
    by_cases hb : x.1 = b
    · subst hb
      have hmine := hl.mine_of_live (live_of_argument hv x hmem) (hown x hmem)
      have hzero := hown x hmem
      rw [owners_eq] at hzero
      rw [hmine, Bool.toNat_true]
      simp only [decide_true, if_true]
      omega
    · simp only [hb, decide_false, Bool.false_eq_true, if_false]
      omega

/-! ### Calls -/

/-- The messages can be read. -/
def Loads (addr : BlockId → UInt64) (M : Memory) : Prop :=
  ∀ i m, M.msgs.get i = some m → ∃ p, m.load addr M.heap = some p

/-- From `M` to `M'` message `i` came to say `p`, or went; `out` was released and the
blocks `given` were taken. -/
structure Effect (addr : BlockId → UInt64) (M : Memory) (mine : BlockId → Bool) (i : MsgId)
    (out : List (BlockId × PsDtor)) (given : List (BlockId × Option PsDtor)) (p : Option PsMsg)
    (M' : Memory) : Prop where
  released : M'.heap.released = M.heap.released ++ out
  ledger : M'.Ledger fun b => mine b && duties given b = 0
  loads : M'.Loads addr
  content : ∀ j, M'.content addr j = if j = i then p else M.content addr j

theorem Loads.content_isSome (h : M.Loads addr) (i : MsgId) :
    (M.content addr i).isSome = (M.msgs.get i).isSome := by
  unfold Memory.content
  cases hm : M.msgs.get i with
  | none => rfl
  | some m =>
    obtain ⟨p, hp⟩ := h i m hm
    rw [Option.bind_some, hp]
    rfl

theorem Loads.exists (h : M.Loads addr) {m : RawMsg} (hm : M.msgs.get i = some m) :
    ∃ p, m.load addr M.heap = some p ∧ M.content addr i = some p := by
  obtain ⟨p, hp⟩ := h i m hm
  exact ⟨p, hp, by rw [Memory.content, hm, Option.bind_some, hp]⟩

/-- A change of one message that leaves the account in order. -/
theorem Effect.of_only {q : Option PsMsg} (hl : M.Ledger mine) (hload : M.Loads addr)
    (ho : M.Only i M') (hc : M.heap.Changes out n M'.heap)
    (hl' : M'.Ledger fun b => mine b && duties given b = 0) (hq : M'.content addr i = q)
    (hi : ∀ m, M'.msgs.get i = some m → ∃ p, m.load addr M'.heap = some p) :
    Effect addr M mine i out given q M' where
  released := hc.released
  ledger := hl'
  loads j m hm := by
    by_cases hj : j = i
    · subst hj
      exact hi m hm
    · have hm' := hm
      rw [ho.others j hj] at hm'
      obtain ⟨p, hp, hcontent⟩ := hload.exists hm'
      have hkept : M'.content addr j = M.content addr j := ho.content hl hl' hc hj
      rw [hcontent, Memory.content, hm, Option.bind_some] at hkept
      exact ⟨p, hkept⟩
  content j := by
    split
    case isTrue hj => rw [hj, hq]
    case isFalse hj => exact ho.content hl hl' hc hj

/-- A change of one message that allocates, releases and takes as `MessageAt` has it. -/
theorem Effect.of_message {p : PsMsg} {m' : RawMsg} (hl : M.Ledger mine) (hload : M.Loads addr)
    (ho : M.Only i M') (hm' : M'.msgs.get i = some m')
    (hat : MessageAt addr M.heap (M.blocksOf i) out given n M'.heap m' p)
    (hgiven : ∀ b, duties given b + loans given b + M.lent b ≤ (mine b).toNat) :
    Effect addr M mine i out given (some p) M' := by
  have hblocks : M'.blocksOf i = m'.blocks := by rw [blocksOf, hm', Option.elim_some]
  apply Effect.of_only hl hload ho hat.changes
  · apply hl.only ho hat.changes hat.out_le _ _ hgiven
    · rw [hblocks]
      exact hat.duties
    · rw [hblocks]
      exact hat.loans
  · rw [Memory.content, hm', Option.bind_some, hat.load]
  · intro m hm
    obtain rfl := Option.some.inj (hm'.symm.trans hm)
    exact ⟨p, hat.load⟩

theorem Ledger.nothing_given (hl : M.Ledger mine) (b : BlockId) :
    duties [] b + loans [] b + M.lent b ≤ (mine b).toNat := by
  have hlent := hl.lent b
  rw [duties_nil, loans_nil]
  omega

/-- A function that changes one message. -/
theorem onMsg_effect {m m' : RawMsg} {p : PsMsg} {H' : Blocks}
    {f : Blocks → RawMsg → Option (RawMsg × Blocks)} (hl : M.Ledger mine) (hload : M.Loads addr)
    (hm : M.msgs.get i = some m) (hf : f M.heap m = some (m', H'))
    (hat : MessageAt addr M.heap m.blocks out given n H' m' p)
    (hgiven : ∀ b, duties given b + loans given b + M.lent b ≤ (mine b).toNat) :
    M.onMsg i f = some { M with heap := H', msgs := M.msgs.set i (some m') } ∧
      Effect addr M mine i out given (some p)
        { M with heap := H', msgs := M.msgs.set i (some m') } := by
  constructor
  · rw [onMsg, hm, Option.bind_eq_bind, Option.bind_some, hf]
    rfl
  · have hget : (M.msgs.set i (some m')).get i = some m' := (Cells.get_set hm _ _).trans (if_pos rfl)
    have hold : M.blocksOf i = m.blocks := by rw [blocksOf, hm, Option.elim_some]
    rw [← hold] at hat
    exact Effect.of_message hl hload (.set hm (some m') rfl) hget hat hgiven

theorem psMsgSetTopic_effect {m : RawMsg} {q : PsMsg} (hl : M.Ledger mine)
    (hload : M.Loads addr) (hm : M.msgs.get i = some m) (hq : m.load addr M.heap = some q)
    (hp : M.textOk p) :
    ∃ t m' H', textOf M.heap p = some t ∧
      M.psMsgSetTopic i p = some { M with heap := H', msgs := M.msgs.set i (some m') } ∧
      Effect addr M mine i (disposals (textBlock m.topic)) [] (some { q with topic := t })
        { M with heap := H', msgs := M.msgs.set i (some m') } := by
  obtain ⟨⟨t, ht⟩, hown⟩ := textOk_spec hp
  obtain ⟨m', H', n, hset, hat⟩ := psMsgSetTopic_spec hq (hl.separate hm) ht fun x hx y hy =>
    Ledger.ne_of_owners hm (hown y hy) x hx
  exact ⟨t, m', H', ht, onMsg_effect hl hload hm hset hat hl.nothing_given⟩

theorem psMsgSetRtopic_effect {m : RawMsg} {q : PsMsg} (hl : M.Ledger mine)
    (hload : M.Loads addr) (hm : M.msgs.get i = some m) (hq : m.load addr M.heap = some q)
    (hp : M.textOk p) :
    ∃ t m' H', textOf M.heap p = some t ∧
      M.psMsgSetRtopic i p = some { M with heap := H', msgs := M.msgs.set i (some m') } ∧
      Effect addr M mine i (disposals (textBlock m.rtopic)) [] (some { q with rtopic := t })
        { M with heap := H', msgs := M.msgs.set i (some m') } := by
  obtain ⟨⟨t, ht⟩, hown⟩ := textOk_spec hp
  obtain ⟨m', H', n, hset, hat⟩ := psMsgSetRtopic_spec hq (hl.separate hm) ht fun x hx y hy =>
    Ledger.ne_of_owners hm (hown y hy) x hx
  exact ⟨t, m', H', ht, onMsg_effect hl hload hm hset hat hl.nothing_given⟩

theorem psMsgSetValue_effect {m : RawMsg} {q : PsMsg} (hl : M.Ledger mine)
    (hload : M.Loads addr) (hm : M.msgs.get i = some m) (hq : m.load addr M.heap = some q)
    (hargs : M.argsOk flags args) :
    ∃ v m' H', argumentValue addr M.heap flags args = some v ∧
      M.psMsgSetValue i flags args =
        some { M with heap := H', msgs := M.msgs.set i (some m') } ∧
      Effect addr M mine i (disposals m.valueBlocks) (givenBlocks flags args)
        (some { q with flags := valueFlags q.flags flags, value := v })
        { M with heap := H', msgs := M.msgs.set i (some m') } := by
  obtain ⟨⟨v, hv⟩, hown⟩ := argsOk_spec addr hargs
  obtain ⟨m', H', n, hset, hat⟩ := psMsgSetValue_spec hq (hl.separate hm) hv fun x hx y hy =>
    Ledger.ne_of_owners hm (hown y hy) x hx
  exact ⟨v, m', H', hv, onMsg_effect hl hload hm hset hat (hl.given_le hargs)⟩

theorem psNewMsg_effect {topic : BlockId} (hl : M.Ledger mine) (hload : M.Loads addr)
    (htopic : M.textOk (some topic)) (hargs : M.argsOk flags args) :
    ∃ t v m' H', textOf M.heap (some topic) = some (some t) ∧
      argumentValue addr M.heap flags args = some v ∧
      M.psNewMsg (some topic) flags args = some (some M.msgs.next,
        { M with heap := H', msgs := M.msgs.alloc m', statLiveMsg := M.statLiveMsg + 1 }) ∧
      Effect addr M mine M.msgs.next [] (givenBlocks flags args)
        (some { ref := 1, topic := some t, rtopic := none, flags := valueFlags flags flags,
                priority := 0, value := v })
        { M with heap := H', msgs := M.msgs.alloc m', statLiveMsg := M.statLiveMsg + 1 } := by
  obtain ⟨⟨t, ht⟩, -⟩ := textOk_spec htopic
  obtain ⟨⟨v, hv⟩, -⟩ := argsOk_spec addr hargs
  obtain ⟨l, hl', rfl⟩ := Option.map_eq_some_iff.mp ht
  obtain ⟨m', H', n, hnew, hat⟩ := psNewMsg_spec ht hv
  refine ⟨toStr l, v, m', H', ht, hv, ?_, ?_⟩
  · rw [psNewMsg, hnew]
    rfl
  · have hold : M.blocksOf M.msgs.next = [] := by rw [blocksOf, Cells.get_next, Option.elim_none]
    rw [← hold] at hat
    exact Effect.of_message hl hload (.alloc m' rfl) (Cells.get_alloc_self _ _) hat
      (hl.given_le hargs)

theorem psDupMsg_effect {m : RawMsg} {q : PsMsg} (hl : M.Ledger mine) (hload : M.Loads addr)
    (hm : M.msgs.get i = some m) (hq : m.load addr M.heap = some q) :
    ∃ m' H', M.psDupMsg i = some (M.msgs.next,
        { M with heap := H', msgs := M.msgs.alloc m', statLiveMsg := M.statLiveMsg + 1 }) ∧
      Effect addr M mine M.msgs.next [] [] (some { q with ref := 1, value := ownValue q.value })
        { M with heap := H', msgs := M.msgs.alloc m', statLiveMsg := M.statLiveMsg + 1 } := by
  obtain ⟨m', H', n, hdup, hat⟩ := psDupMsg_spec hq
  refine ⟨m', H', ?_, ?_⟩
  · rw [psDupMsg, hm, Option.bind_eq_bind, Option.bind_some, hdup]
    rfl
  · have hold : M.blocksOf M.msgs.next = [] := by rw [blocksOf, Cells.get_next, Option.elim_none]
    have hat' : MessageAt addr M.heap (M.blocksOf M.msgs.next) [] [] n H' m'
        { q with ref := 1, value := ownValue q.value } := by rwa [hold]
    exact Effect.of_message hl hload (.alloc m' rfl) (Cells.get_alloc_self _ _) hat'
      hl.nothing_given

/-- A new counter is all that changes. -/
theorem ref_effect {m : RawMsg} {q : PsMsg} (hl : M.Ledger mine) (hload : M.Loads addr)
    (hm : M.msgs.get i = some m) (hq : m.load addr M.heap = some q) (ref : UInt32) (wrap : Bool) :
    Effect addr M mine i [] [] (some { q with ref := ref })
      { M with msgs := M.msgs.set i (some { m with ref := ref }), refWrap := wrap } := by
  obtain ⟨-, ht, hr, hflags, hpriority, hvalue⟩ := RawMsg.load_eq_some.mp hq
  have hget : (M.msgs.set i (some { m with ref := ref })).get i = some { m with ref := ref } :=
    (Cells.get_set hm _ _).trans (if_pos rfl)
  have hold : M.blocksOf i = m.blocks := by rw [blocksOf, hm, Option.elim_some]
  have hat : MessageAt addr M.heap (M.blocksOf i) [] [] 0 M.heap { m with ref := ref }
      { q with ref := ref } :=
    { changes := Heap.Changes.refl M.heap
      load := RawMsg.load_eq_some.mpr ⟨rfl, ht, hr, hflags, hpriority, hvalue⟩
      out_le := fun _ => Nat.zero_le _
      duties := fun b => by rw [hold, Heap.fresh_zero, duties_nil]; rfl
      loans := fun b => by rw [hold]; exact Nat.le_add_right _ _ }
  exact Effect.of_message hl hload (.set hm (some { m with ref := ref }) rfl) hget hat
    hl.nothing_given

/-- The last reference of a message is dropped. -/
theorem release_effect {m : RawMsg} {q : PsMsg} (hl : M.Ledger mine) (hload : M.Loads addr)
    (hm : M.msgs.get i = some m) (hq : m.load addr M.heap = some q) :
    ∃ H', RawMsg.release M.heap m = some H' ∧
      Effect addr M mine i (disposals m.blocks) [] none
        { M with heap := H', msgs := M.msgs.free i, statLiveMsg := M.statLiveMsg - 1 } := by
  obtain ⟨H', hrelease, hc⟩ := release_spec hq (hl.separate hm)
  have ho : M.Only i { M with heap := H', msgs := M.msgs.free i,
                              statLiveMsg := M.statLiveMsg - 1 } := .free hm rfl
  have hgone : (M.msgs.free i).get i = none := (Cells.get_free _ _ _).trans (if_pos rfl)
  refine ⟨H', hrelease, Effect.of_only hl hload ho hc ?_ ?_ ?_⟩
  · apply hl.only ho hc _ _ _ hl.nothing_given
    · intro b
      rw [blocksOf, hm, Option.elim_some]
      exact le_rfl
    · intro b
      rw [blocksOf, blocksOf, hm, hgone, Heap.fresh_zero]
      exact Nat.zero_add _
    · intro b
      rw [blocksOf, hgone]
      exact Nat.zero_le _
  · rw [Memory.content, hgone, Option.bind_none]
  · intro m' hm'
    rw [hgone] at hm'
    cases hm'

/-- A client's own allocation changes no message. -/
theorem alloc_load (hl : M.Ledger mine) (bytes : List UInt8) {m : RawMsg}
    (hm : M.msgs.get i = some m) : m.load addr (M.heap.alloc bytes).2 = m.load addr M.heap :=
  RawMsg.load_congr fun x hx =>
    (Heap.Changes.alloc M.heap bytes).get_of_notMem (hl.live hm x hx) (by simp)

theorem alloc_content (hl : M.Ledger mine) (bytes : List UInt8) (j : MsgId) :
    Memory.content addr { M with heap := (M.heap.alloc bytes).2 } j = M.content addr j := by
  unfold Memory.content
  cases hm : M.msgs.get j with
  | none => rfl
  | some m => exact alloc_load hl bytes hm

theorem Ledger.alloc (hl : M.Ledger mine) (bytes : List UInt8) :
    Ledger { M with heap := (M.heap.alloc bytes).2 }
      fun b => mine b || decide (M.heap.blocks.next = b) := by
  have hnew : mine M.heap.blocks.next = false := by
    have hone := hl.one M.heap.blocks.next
    have hzero : M.heap.allocated M.heap.blocks.next = 0 := if_neg (Nat.lt_irrefl _)
    cases hm : mine M.heap.blocks.next with
    | false => rfl
    | true =>
      rw [hm, Bool.toNat_true] at hone
      omega
  have hmine : ∀ b, (mine b || decide (M.heap.blocks.next = b)).toNat =
      (mine b).toNat + Heap.fresh M.heap.blocks.next 1 b := by
    intro b
    rw [Heap.fresh_one]
    by_cases hb : M.heap.blocks.next = b
    · rw [← hb, hnew]
      simp
    · simp [hb]
  apply hl.change (Heap.Changes.alloc M.heap bytes)
  · exact fun _ => Nat.zero_le _
  · intro b
    rw [hmine b]
    show _ + M.due b + 0 = _
    omega
  · intro b
    have hlent := hl.lent b
    rw [hmine b]
    show M.lent b ≤ _
    omega

end Memory

end PubSub
