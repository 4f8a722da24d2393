import PubSub.Bus.Publish
import PubSub.Bus.Pushes

/-! The edits of the sticky messages: the first round of `ps_publish` and the rounds
of `ps_clean_sticky` are one operation on the table, `setSticky`, between a
release of the old sticky message and a reference to the new one. -/

namespace PubSub

open Lib

variable {Q : Type → Type} [PsQueue Q] [LawfulPsQueue Q]

/-- A topic, or no topic of that name, after its sticky message was set to `v`. -/
def withSticky (name : Str) (v : Option MsgId) (o : Option TopicMap) : Option TopicMap :=
  TopicMap.unlessDead { o.getD ⟨name, [], none⟩ with sticky := v }

/-- The table after the sticky message of `name` was set to `v`. -/
def setSticky (topicMap : Cells TopicMap) (name : Str) (v : Option MsgId) : Cells TopicMap :=
  match fetchTopic topicMap name with
  | some tm => topicMap.set tm (withSticky name v (topicMap.get tm))
  | none =>
    match v with
    | none => topicMap
    | some msg => (topicMap.alloc ⟨name, [], none⟩).set topicMap.next (some ⟨name, [], some msg⟩)

/-- What that operation does to the table. -/
structure StickyEdit (a b : Cells TopicMap) (name : Str) (v : Option MsgId) : Prop where
  names : Names b
  alive : NoDeadTopic b
  topicAt : topicAt b = Function.update (topicAt a) name (withSticky name v (topicAt a name))
  entriesOf : entriesOf b = entriesOf a
  stickies : ∃ rest, stickies a = rest + ownRef (stickyAt a name) ∧ stickies b = rest + ownRef v

namespace StickyEdit
variable {a b : Cells TopicMap} {name : Str} {v : Option MsgId}

theorem stickyAt (h : StickyEdit a b name v) : stickyAt b = Function.update (stickyAt a) name v := by
  funext x
  rw [PubSub.stickyAt, h.topicAt, Function.update_apply, Function.update_apply]
  split
  · exact unlessDead_sticky _
  · rfl

theorem entriesAt (h : StickyEdit a b name v) : entriesAt b = entriesAt a := by
  funext x
  rw [PubSub.entriesAt, h.topicAt, Function.update_apply]
  split
  case isTrue hx =>
    subst hx
    rw [withSticky, unlessDead_subscribers, PubSub.entriesAt]
    cases PubSub.topicAt a x <;> rfl
  case isFalse => rfl

end StickyEdit

section SetSticky
variable {topicMap : Cells TopicMap} {name : Str} {v : Option MsgId} {tm : TopicId} {t : TopicMap}

theorem setSticky_of_fetch (hf : fetchTopic topicMap name = some tm)
    (ht : topicMap.get tm = some t) :
    setSticky topicMap name v = topicMap.set tm (TopicMap.unlessDead { t with sticky := v }) := by
  simp only [setSticky, hf, ht, withSticky, Option.getD_some]

theorem setSticky_of_absent (hf : fetchTopic topicMap name = none) :
    setSticky topicMap name none = topicMap := by
  simp only [setSticky, hf]

theorem setSticky_of_new (hf : fetchTopic topicMap name = none) (msg : MsgId) :
    setSticky topicMap name (some msg) =
      (topicMap.alloc ⟨name, [], none⟩).set topicMap.next (some ⟨name, [], some msg⟩) := by
  simp only [setSticky, hf]

/-- What the topic's cell gives up and takes. -/
theorem stickies_set_rest (ht : topicMap.get tm = some t) (o : Option TopicMap) :
    ∃ rest, stickies topicMap = rest + ownRef t.sticky ∧
      stickies (topicMap.set tm o) = rest + ownRef (o.bind TopicMap.sticky) := by
  have hnone := stickies_set ht (o := none)
  have ho := stickies_set ht (o := o)
  rw [Option.bind_none, ownRef_none, add_zero] at hnone
  refine ⟨stickies (topicMap.set tm none), hnone.symm, ?_⟩
  rw [← hnone, add_right_comm] at ho
  exact add_right_cancel ho

theorem setSticky_edit (hn : Names topicMap) (ha : NoDeadTopic topicMap) (hs : ' ' ∉ name) :
    StickyEdit topicMap (setSticky topicMap name v) name v := by
  cases hf : fetchTopic topicMap name with
  | some tm =>
    obtain ⟨t, ht, rfl⟩ := fetchTopic_some hf
    have htopic : ∀ t' ∈ TopicMap.unlessDead { t with sticky := v }, t'.topic = t.topic := by
      intro t' h
      rw [(mem_unlessDead.mp h).1]
    have hat := topicAt_of_fetch hf ht
    rw [setSticky_of_fetch hf ht]
    refine ⟨hn.set ht htopic, ha.set ht fun t' h => ?_, ?_, ?_, ?_⟩
    · obtain ⟨rfl, hd⟩ := mem_unlessDead.mp h
      exact hd
    · rw [topicAt_set hn ht htopic, hat]
      rfl
    · rw [entriesOf_set ht, unlessDead_subscribers]
      funext i
      rw [Function.update_apply]
      split
      case isTrue h =>
        subst h
        simp [entriesOf, ht]
      case isFalse => rfl
    · obtain ⟨rest, h₁, h₂⟩ := stickies_set_rest ht (TopicMap.unlessDead { t with sticky := v })
      rw [unlessDead_sticky] at h₂
      refine ⟨rest, ?_, h₂⟩
      rw [h₁, stickyAt, hat, Option.bind_some]
  | none =>
    have hat := topicAt_eq_none.mpr hf
    have hst : stickyAt topicMap name = none := by rw [stickyAt, hat, Option.bind_none]
    cases v with
    | none =>
      rw [setSticky_of_absent hf]
      refine ⟨hn, ha, ?_, rfl, stickies topicMap, ?_, by simp⟩
      · have : withSticky name none (topicAt topicMap name) = topicAt topicMap name := by
          rw [hat]
          simp [withSticky, TopicMap.unlessDead, TopicMap.Dead]
        rw [this, Function.update_eq_self]
      · rw [hst, ownRef_none, add_zero]
    | some msg =>
      have hget := Cells.get_alloc_self topicMap ⟨name, [], none⟩
      have hnew := hn.create hf hs
      have htopic : ∀ t' ∈ some (⟨name, [], some msg⟩ : TopicMap), t'.topic = name := by
        rintro t' ⟨⟩
        rfl
      rw [setSticky_of_new hf]
      refine ⟨hnew.set hget htopic, ?_, ?_, ?_, ?_⟩
      · intro i t' hi
        rw [Cells.get_set hget] at hi
        split at hi
        · cases hi
          simp [TopicMap.Dead]
        · rw [Cells.get_alloc] at hi
          split at hi
          · contradiction
          · exact ha i t' hi
      · have hset := topicAt_set hnew hget htopic
        have hcreate := topicAt_create hn hf hs
        simp only [createTopic] at hset hcreate ⊢
        rw [hset, hcreate, Function.update_idem, hat]
        simp [withSticky, TopicMap.unlessDead, TopicMap.Dead]
      · have := entriesOf_create topicMap name
        simp only [createTopic] at this ⊢
        rw [entriesOf_set hget, this]
        funext i
        rw [Function.update_apply]
        split
        case isTrue h =>
          rw [h, entriesOf, Cells.get_next]
          rfl
        case isFalse => rfl
      · have hst' := stickies_create topicMap name
        have hset := stickies_set hget (o := some ⟨name, [], some msg⟩)
        simp only [createTopic] at hst' hset ⊢
        rw [hst', ownRef_none, add_zero, Option.bind_some] at hset
        exact ⟨stickies topicMap, by rw [hst, ownRef_none, add_zero], hset⟩

end SetSticky

section Publish
variable {s : Bus Q} {msg : MsgId} {topic : Str}

/-- The sticky message that a publish leaves at its topic. -/
def PsMsg.retained (m : PsMsg) (msg : MsgId) : Option MsgId := if m.sticky then some msg else none

theorem createTopic_fetch {topicMap : Cells TopicMap} {name : Str} (msg : MsgId)
    (hn : Names topicMap) (hf : fetchTopic topicMap name = none) (hs : ' ' ∉ name) :
    fetchTopic (setSticky topicMap name (some msg)) name = some topicMap.next := by
  have hget := Cells.get_alloc_self topicMap ⟨name, [], none⟩
  have htopic : ∀ t' ∈ some (⟨name, [], some msg⟩ : TopicMap), t'.topic = name := by
    rintro t' ⟨⟩
    rfl
  have hnew := (hn.create hf hs).set hget htopic
  have hat := Cells.get_set hget (some ⟨name, [], some msg⟩) topicMap.next
  rw [if_pos rfl] at hat
  rw [setSticky_of_new hf]
  exact fetchTopic_topic hnew hat

theorem fetch_setSticky {topicMap : Cells TopicMap} {v : Option MsgId} {tm : TopicId} {t : TopicMap}
    (hn : Names topicMap) (ht : topicMap.get tm = some t) :
    fetchTopic (setSticky topicMap t.topic v) t.topic =
      if TopicMap.Dead { t with sticky := v } then none else some tm := by
  have hf := fetchTopic_topic hn ht
  have hset := setSticky_of_fetch (v := v) hf ht
  have htopic : ∀ t' ∈ TopicMap.unlessDead { t with sticky := v }, t'.topic = t.topic := by
    intro t' h
    rw [(mem_unlessDead.mp h).1]
  rw [hset]
  split
  case isTrue hd =>
    apply topicAt_eq_none.mp
    rw [topicAt_set hn ht htopic, Function.update_self, TopicMap.unlessDead, if_pos hd]
  case isFalse hd =>
    have hun : TopicMap.unlessDead { t with sticky := v } = some { t with sticky := v } := if_neg hd
    rw [hun] at htopic ⊢
    exact fetchTopic_topic (t := { t with sticky := v }) (hn.set ht htopic)
      (by rw [Cells.get_set ht, if_pos rfl])

/-- The first round's branches are one operation: release what was retained, take
a reference for what is retained now, and set it. -/
theorem updateSticky_eq (hn : Names s.topicMap) (ha : NoDeadTopic s.topicMap) (hs : ' ' ∉ topic) :
    updateSticky s msg topic (fetchTopic s.topicMap topic) =
      (s.messages.cells.get msg).bind fun m =>
        (psUnrefMsg s.messages (stickyAt s.topicMap topic)).bind fun ms =>
          (psRefMsg ms (m.retained msg)).bind fun ms =>
            some (fetchTopic (setSticky s.topicMap topic (m.retained msg)) topic,
              { s with
                messages := ms, topicMap := setSticky s.topicMap topic (m.retained msg) }) := by
  cases hm : s.messages.cells.get msg with
  | none => simp [updateSticky, hm]
  | some m =>
    simp only [updateSticky, hm, Option.bind_eq_bind, Option.bind_some]
    cases hf : fetchTopic s.topicMap topic with
    | none =>
      have hst : stickyAt s.topicMap topic = none := by
        rw [stickyAt, topicAt_eq_none.mpr hf, Option.bind_none]
      cases hsticky : m.sticky with
      | true =>
        have hget := Cells.get_alloc_self s.topicMap ⟨topic, [], none⟩
        have hfetch := createTopic_fetch msg hn hf hs
        simp only [PsMsg.retained, hsticky, hst, hfetch, createTopic, hget, ↓reduceIte,
          psUnrefMsg, Option.bind_some]
        simp only [setSticky_of_new hf, Cells.modify_eq_set hget]
      | false =>
        simp [PsMsg.retained, hsticky, hst, psUnrefMsg, psRefMsg, setSticky_of_absent hf, hf]
    | some tm =>
      obtain ⟨t, ht, rfl⟩ := fetchTopic_some hf
      have hst : stickyAt s.topicMap t.topic = t.sticky := by
        rw [stickyAt, topicAt_of_fetch hf ht, Option.bind_some]
      have hedit := setSticky_of_fetch (v := m.retained msg) hf ht
      have hfetch := fetch_setSticky (v := m.retained msg) hn ht
      cases hsticky : m.sticky with
      | true =>
        simp only [PsMsg.retained, hsticky, ↓reduceIte] at hedit hfetch ⊢
        have hdead : ¬ TopicMap.Dead { t with sticky := some msg } := by simp [TopicMap.Dead]
        rw [if_neg hdead] at hfetch
        rw [TopicMap.unlessDead, if_neg hdead, ← Cells.modify_eq_set ht fun _ => _] at hedit
        simp only [ht, hst, hfetch, Option.bind_some]
        simp only [hedit]
      | false =>
        simp only [PsMsg.retained, hsticky, Bool.false_eq_true, ↓reduceIte] at hedit hfetch ⊢
        simp only [ht, hst, psRefMsg, Option.bind_some]
        cases hold : t.sticky with
        | none =>
          have ht' : { t with sticky := none } = t := by rw [← hold]
          rw [ht', if_neg (ha tm t ht)] at hfetch
          rw [ht', TopicMap.unlessDead, if_neg (ha tm t ht), Cells.set_self ht] at hedit
          simp only [psUnrefMsg, hfetch, Option.bind_some]
          simp only [hedit]
        | some old =>
          rw [freeTopicIfEmpty_modify ht, hfetch, hedit]
          simp only [Option.bind_some, decide_eq_true_eq]

end Publish

/-! ### The step -/

/-- The sticky message of `name` becomes `v`, with its references. -/
def StickyStep (s : Bus Q) (name : Str) (v : Option MsgId) (s' : Bus Q) : Prop :=
  ∃ ms₁ ms₂, psUnrefMsg s.messages (stickyAt s.topicMap name) = some ms₁ ∧
    psRefMsg ms₁ v = some ms₂ ∧
    s' = { s with messages := ms₂, topicMap := setSticky s.topicMap name v }

theorem updateSticky_step {s s' : Bus Q} {msg : MsgId} {topic : Str} {tm : Option TopicId}
    (hn : Names s.topicMap) (ha : NoDeadTopic s.topicMap) (hs : ' ' ∉ topic) :
    updateSticky s msg topic (fetchTopic s.topicMap topic) = some (tm, s') ↔
      ∃ m, s.messages.cells.get msg = some m ∧ StickyStep s topic (m.retained msg) s' ∧
        tm = fetchTopic s'.topicMap topic := by
  rw [updateSticky_eq hn ha hs]
  simp only [Option.bind_eq_some_iff, Option.some.injEq, Prod.mk.injEq]
  constructor
  · rintro ⟨m, hm, ms₁, h₁, ms₂, h₂, rfl, rfl⟩
    exact ⟨m, hm, ⟨ms₁, ms₂, h₁, h₂, rfl⟩, rfl⟩
  · rintro ⟨m, hm, ⟨ms₁, ms₂, h₁, h₂, rfl⟩, rfl⟩
    exact ⟨m, hm, ms₁, h₁, ms₂, h₂, rfl, rfl⟩

namespace StickyStep
variable {s s' : Bus Q} {name : Str} {v : Option MsgId} {held : MsgId → ℕ}

theorem edit (h : StickyStep s name v s') (hn : Names s.topicMap) (ha : NoDeadTopic s.topicMap)
    (hs : ' ' ∉ name) : StickyEdit s.topicMap s'.topicMap name v := by
  obtain ⟨ms₁, ms₂, -, -, rfl⟩ := h
  exact setSticky_edit hn ha hs

theorem sameContent (h : StickyStep s name v s') : s.messages.SameContent s'.messages := by
  obtain ⟨ms₁, ms₂, h₁, h₂, rfl⟩ := h
  apply (psUnrefMsg_sameContent h₁).trans
  cases v with
  | none =>
    cases h₂
    exact .refl ms₁
  | some msg => exact psRefMsg_sameContent h₂

theorem statOk (h : StickyStep s name v s') (hs : s.messages.StatOk) : s'.messages.StatOk := by
  obtain ⟨ms₁, ms₂, h₁, h₂, rfl⟩ := h
  have hs₁ := psUnrefMsg_statOk h₁ hs
  cases v with
  | none =>
    cases h₂
    exact hs₁
  | some msg => exact psRefMsg_statOk h₂ hs₁

theorem subscribers (h : StickyStep s name v s') : s'.subscribers = s.subscribers := by
  obtain ⟨ms₁, ms₂, -, -, rfl⟩ := h
  rfl

theorem refOk_midway {a b : Cells TopicMap} (he : StickyEdit a b name v) {ms ms₁ : Messages}
    {slots : MsgId → ℕ} (h₁ : psUnrefMsg ms (stickyAt a name) = some ms₁)
    (hr : ms.RefOk (slots + stickies a + held)) :
    ∃ rest, ms₁.RefOk rest ∧ rest + ownRef v = slots + stickies b + held ∧ held ≤ rest ∧
      ms.RefOk (rest + ownRef (stickyAt a name)) := by
  obtain ⟨rest, ha, hb⟩ := he.stickies
  rw [ha, ← add_assoc, add_right_comm] at hr
  refine ⟨slots + rest + held, psUnrefMsg_refOk h₁ hr, ?_, ?_, hr⟩
  · rw [hb]
    abel
  · intro i
    simp only [Pi.add_apply]
    omega

theorem refOk (h : StickyStep s name v s') (hn : Names s.topicMap) (ha : NoDeadTopic s.topicMap)
    (hs : ' ' ∉ name) (hr : s.RefOk held) : s'.RefOk held := by
  have he := h.edit hn ha hs
  obtain ⟨ms₁, ms₂, h₁, h₂, rfl⟩ := h
  obtain ⟨rest, hr₁, hrest, -⟩ := refOk_midway he h₁ hr
  rw [Bus.RefOk, Bus.account, ← hrest]
  cases v with
  | none =>
    cases h₂
    rw [ownRef_none, add_zero]
    exact hr₁
  | some msg => exact psRefMsg_refOk h₂ hr₁

theorem ready {msg : MsgId} {k : ℕ} (h : StickyStep s name v s') (hn : Names s.topicMap)
    (ha : NoDeadTopic s.topicMap) (hs : ' ' ∉ name) (hv : ∀ x ∈ v, x = msg)
    (hr : s.Ready held msg (k + 1)) : s'.Ready held msg k := by
  have hok := h.refOk hn ha hs hr.refOk
  have he := h.edit hn ha hs
  obtain ⟨ms₁, ms₂, h₁, h₂, rfl⟩ := h
  obtain ⟨rest, hr₁, -, -, hr₀⟩ := refOk_midway he h₁ hr.refOk
  obtain ⟨hk₁, hw₁⟩ := psUnrefMsg_room h₁ hr₀ hr.noWrap hr.room
  cases v with
  | none =>
    cases h₂
    exact ⟨hok, hw₁, hr.owned, hk₁.mono (Nat.le_succ k)⟩
  | some x =>
    obtain rfl := hv x rfl
    obtain ⟨hk₂, hw₂⟩ := psRefMsg_room h₂ hk₁
    exact ⟨hok, hw₂.trans hw₁, hr.owned, hk₂⟩

/-- The step can be made by a client that holds a reference to the new message. -/
theorem exists_of_refOk (hn : Names s.topicMap) (ha : NoDeadTopic s.topicMap) (hs : ' ' ∉ name)
    (hr : s.RefOk held) (hw : s.messages.refWrap = false) (hv : ∀ msg ∈ v, 0 < held msg) :
    ∃ s', StickyStep s name v s' := by
  have he := setSticky_edit (v := v) hn ha hs
  obtain ⟨rest, ha', -⟩ := he.stickies
  have hr' := hr
  rw [Bus.RefOk, Bus.account, ha', ← add_assoc, add_right_comm] at hr'
  obtain ⟨ms₁, h₁⟩ := psUnrefMsg_isSome hr' hw
  obtain ⟨rest', hr₁, -, hle, -⟩ := refOk_midway he h₁ hr
  cases v with
  | none => exact ⟨_, ms₁, ms₁, h₁, rfl, rfl⟩
  | some msg =>
    have hlive : (ms₁.cells.get msg).isSome := by
      apply (hr₁ ((psUnrefMsg_refWrap h₁).trans hw) msg).2.mpr
      exact lt_of_lt_of_le (hv msg rfl) (hle msg)
    obtain ⟨ms₂, h₂⟩ := psRefMsg_isSome hlive
    exact ⟨_, ms₁, ms₂, h₁, h₂, rfl⟩

end StickyStep

/-! ### `ps_clean_sticky` -/

section Clean
variable {s s' : Bus Q} {pre : Str} {tm : TopicId} {t : TopicMap}

theorem setSticky_self (hn : Names s.topicMap) (ha : NoDeadTopic s.topicMap)
    (ht : s.topicMap.get tm = some t) (hst : t.sticky = none) :
    setSticky s.topicMap t.topic none = s.topicMap := by
  have ht' : { t with sticky := none } = t := by rw [← hst]
  rw [setSticky_of_fetch (fetchTopic_topic hn ht) ht, ht', TopicMap.unlessDead,
    if_neg (ha tm t ht), Cells.set_self ht]

theorem cleanTopic_step (hn : Names s.topicMap) (ha : NoDeadTopic s.topicMap)
    (ht : s.topicMap.get tm = some t) :
    cleanTopic pre s tm = some s' ↔
      if inSubtree pre t.topic then StickyStep s t.topic none s' else s' = s := by
  have hst : stickyAt s.topicMap t.topic = t.sticky := by
    rw [stickyAt, topicAt_topic hn ht, Option.bind_some]
  simp only [cleanTopic, ht, Option.bind_eq_bind, Option.bind_some, StickyStep, hst]
  split
  case isFalse => simp [eq_comm]
  case isTrue =>
    cases hold : t.sticky with
    | none =>
      simp only [psUnrefMsg, psRefMsg, setSticky_self hn ha ht hold, Option.some.injEq]
      constructor
      · rintro rfl
        exact ⟨_, _, rfl, rfl, rfl⟩
      · rintro ⟨ms₁, ms₂, rfl, rfl, rfl⟩
        rfl
    | some old =>
      rw [freeTopicIfEmpty_modify ht, ← setSticky_of_fetch (fetchTopic_topic hn ht) ht]
      simp only [psRefMsg, Option.bind_some, Option.bind_eq_some_iff, Option.some.injEq]
      constructor
      · rintro ⟨ms, h, rfl⟩
        exact ⟨ms, ms, h, rfl, rfl⟩
      · rintro ⟨ms₁, ms₂, h, rfl, rfl⟩
        exact ⟨ms₁, h, rfl⟩

theorem StickyStep.get_of_ne {v : Option MsgId} (h : StickyStep s t.topic v s')
    (hn : Names s.topicMap) (ht : s.topicMap.get tm = some t) {i : TopicId} (hi : i ≠ tm) :
    s'.topicMap.get i = s.topicMap.get i := by
  obtain ⟨ms₁, ms₂, -, -, rfl⟩ := h
  simp only [setSticky_of_fetch (fetchTopic_topic hn ht) ht, Cells.get_set ht, if_neg hi]

/-- The steps that take away the sticky messages of a list of topics. -/
abbrev CleanRun (s : Bus Q) (names : List Str) (s' : Bus Q) : Prop :=
  Run (fun s name s' => ' ' ∉ name ∧ StickyStep s name none s') s names s'

/-- The loop over the addresses `tms` is such a list of steps, over their names in
the subtree. -/
theorem cleanLoop_run {tms : List TopicId} (hn : Names s.topicMap) (ha : NoDeadTopic s.topicMap)
    (hd : tms.Nodup) (hl : ∀ tm ∈ tms, ∃ t, s.topicMap.get tm = some t)
    (h : tms.foldlM (cleanTopic pre) s = some s') :
    ∃ names, CleanRun s names s' ∧ ∀ name, name ∈ names ↔
      inSubtree pre name ∧ ∃ tm ∈ tms, ∃ t, s.topicMap.get tm = some t ∧ t.topic = name := by
  induction tms generalizing s with
  | nil =>
    cases h
    exact ⟨[], .nil, by simp⟩
  | cons tm tms ih =>
    rw [List.foldlM_cons] at h
    obtain ⟨s₁, h₁, hrest⟩ := Option.bind_eq_some_iff.mp h
    obtain ⟨t, ht⟩ := hl tm List.mem_cons_self
    obtain ⟨htm, hd⟩ := List.nodup_cons.mp hd
    have hstep := (cleanTopic_step hn ha ht).mp h₁
    have hs := hn.noSpace tm t ht
    split at hstep
    case isFalse hin =>
      subst hstep
      obtain ⟨names, hrun, hmem⟩ := ih hn ha hd (fun i hi => hl i (List.mem_cons_of_mem _ hi)) hrest
      refine ⟨names, hrun, fun name => (hmem name).trans ?_⟩
      simp only [List.mem_cons, exists_eq_or_imp]
      constructor
      · rintro ⟨hname, i, hi⟩
        exact ⟨hname, .inr ⟨i, hi⟩⟩
      · rintro ⟨hname, ⟨t', ht', rfl⟩ | ⟨i, hi⟩⟩
        · rw [ht] at ht'
          cases ht'
          exact absurd hname hin
        · exact ⟨hname, i, hi⟩
    case isTrue hin =>
      have he := hstep.edit hn ha hs
      have hget : ∀ i ∈ tms, s₁.topicMap.get i = s.topicMap.get i := fun i hi =>
        hstep.get_of_ne hn ht fun heq => htm (heq ▸ hi)
      obtain ⟨names, hrun, hmem⟩ := ih he.names he.alive hd
        (fun i hi => by rw [hget i hi]; exact hl i (List.mem_cons_of_mem _ hi)) hrest
      refine ⟨t.topic :: names, hrun.cons ⟨hs, hstep⟩, fun name => ?_⟩
      rw [List.mem_cons, hmem]
      simp only [List.mem_cons, exists_eq_or_imp]
      constructor
      · rintro (rfl | ⟨hname, i, hi, t', ht', rfl⟩)
        · exact ⟨hin, .inl ⟨t, ht, rfl⟩⟩
        · exact ⟨hname, .inr ⟨i, hi, t', hget i hi ▸ ht', rfl⟩⟩
      · rintro ⟨hname, ⟨t', ht', rfl⟩ | ⟨i, hi, t', ht', rfl⟩⟩
        · rw [ht] at ht'
          cases ht'
          exact .inl rfl
        · exact .inr ⟨hname, i, hi, t', (hget i hi).symm ▸ ht', rfl⟩

/-- What taking away sticky messages keeps, and what it does to the store. -/
structure Cleaned (s : Bus Q) (gone : Str → Prop) (s' : Bus Q) : Prop where
  names : Names s'.topicMap
  alive : NoDeadTopic s'.topicMap
  entriesOf : entriesOf s'.topicMap = entriesOf s.topicMap
  entriesAt : entriesAt s'.topicMap = entriesAt s.topicMap
  sticky : ∀ name msg, stickyAt s'.topicMap name = some msg ↔
    stickyAt s.topicMap name = some msg ∧ ¬ gone name
  subscribers : s'.subscribers = s.subscribers
  uuidCtr : s'.uuidCtr = s.uuidCtr
  statLiveSubscribers : s'.statLiveSubscribers = s.statLiveSubscribers
  pushes : s'.pushes = s.pushes
  callbacks : s'.callbacks = s.callbacks
  content : s.messages.SameContent s'.messages
  statOk : s.messages.StatOk → s'.messages.StatOk
  refOk : ∀ held, s.RefOk held → s'.RefOk held

theorem CleanRun.cleaned {names : List Str} (hn : Names s.topicMap) (ha : NoDeadTopic s.topicMap)
    (h : CleanRun s names s') : Cleaned s (· ∈ names) s' := by
  induction h with
  | nil =>
    exact ⟨hn, ha, rfl, rfl, by simp, rfl, rfl, rfl, rfl, rfl, .refl _, id, fun _ => id⟩
  | @snoc _ s₁ s₂ name _ hstep ih =>
    obtain ⟨hs, hstep⟩ := hstep
    have he := hstep.edit ih.names ih.alive hs
    have hr : ∀ held, s₁.RefOk held → s₂.RefOk held := by
      intro held hr
      apply hstep.refOk ih.names ih.alive hs
      exact hr
    refine ⟨he.names, he.alive, he.entriesOf.trans ih.entriesOf, he.entriesAt.trans ih.entriesAt,
      fun x msg => ?_, hstep.subscribers.trans ih.subscribers, ?_, ?_, ?_, ?_,
      ih.content.trans hstep.sameContent, fun h => hstep.statOk (ih.statOk h),
      fun held h => hr held (ih.refOk held h)⟩
    · rw [he.stickyAt, Function.update_apply]
      split
      case isTrue hx => simp [hx]
      case isFalse hx => simp [ih.sticky, hx]
    all_goals obtain ⟨ms₁, ms₂, -, -, rfl⟩ := hstep
    · exact ih.uuidCtr
    · exact ih.statLiveSubscribers
    · exact ih.pushes
    · exact ih.callbacks

/-- `ps_clean_sticky` takes away the sticky messages of the subtree and nothing else. -/
theorem psCleanSticky_cleaned (hn : Names s.topicMap) (ha : NoDeadTopic s.topicMap)
    (h : psCleanSticky s pre = some s') : Cleaned s (fun name => inSubtree pre name) s' := by
  have hl : ∀ tm ∈ s.topicMap.ids, ∃ t, s.topicMap.get tm = some t := fun tm htm =>
    Option.isSome_iff_exists.mp (Cells.mem_ids.mp htm)
  obtain ⟨names, hrun, hmem⟩ := cleanLoop_run hn ha (Cells.ids_nodup _) hl h
  have hc := hrun.cleaned hn ha
  refine { hc with sticky := fun name msg => ?_ }
  rw [hc.sticky, hmem]
  constructor
  · rintro ⟨hst, hnot⟩
    refine ⟨hst, fun hin => hnot ⟨hin, ?_⟩⟩
    obtain ⟨t, hat, -⟩ := Option.bind_eq_some_iff.mp hst
    obtain ⟨tm, ht, hname⟩ := (topicAt_eq_some hn).mp hat
    exact ⟨tm, Cells.mem_ids.mpr (by rw [ht]; rfl), t, ht, hname⟩
  · rintro ⟨hst, hin⟩
    exact ⟨hst, fun hnot => hin hnot.1⟩

theorem cleanLoop_exists {tms : List TopicId} {held : MsgId → ℕ} (hn : Names s.topicMap)
    (ha : NoDeadTopic s.topicMap) (hd : tms.Nodup)
    (hl : ∀ tm ∈ tms, ∃ t, s.topicMap.get tm = some t) (hr : s.RefOk held)
    (hw : s.messages.refWrap = false) :
    ∃ s', tms.foldlM (cleanTopic pre) s = some s' ∧ s'.messages.refWrap = false := by
  induction tms generalizing s with
  | nil => exact ⟨s, rfl, hw⟩
  | cons tm tms ih =>
    obtain ⟨t, ht⟩ := hl tm List.mem_cons_self
    obtain ⟨htm, hd⟩ := List.nodup_cons.mp hd
    have hs := hn.noSpace tm t ht
    rw [List.foldlM_cons]
    by_cases hin : inSubtree pre t.topic
    · obtain ⟨s₁, hstep⟩ := StickyStep.exists_of_refOk hn ha hs hr hw (v := none) (by simp)
      have he := hstep.edit hn ha hs
      have hw₁ : s₁.messages.refWrap = false := by
        obtain ⟨ms₁, ms₂, h₁, h₂, rfl⟩ := hstep
        cases h₂
        exact (psUnrefMsg_refWrap h₁).trans hw
      rw [(cleanTopic_step hn ha ht).mpr (by rwa [if_pos hin])]
      refine ih he.names he.alive hd (fun i hi => ?_) (hstep.refOk hn ha hs hr) hw₁
      rw [hstep.get_of_ne hn ht fun heq => htm (heq ▸ hi)]
      exact hl i (List.mem_cons_of_mem _ hi)
    · rw [(cleanTopic_step hn ha ht).mpr (by rw [if_neg hin])]
      exact ih hn ha hd (fun i hi => hl i (List.mem_cons_of_mem _ hi)) hr hw

/-- `ps_clean_sticky` returns. -/
theorem psCleanSticky_exists (pre : Str) {held : MsgId → ℕ} (hn : Names s.topicMap)
    (ha : NoDeadTopic s.topicMap) (hr : s.RefOk held) (hw : s.messages.refWrap = false) :
    ∃ s', psCleanSticky s pre = some s' ∧ s'.messages.refWrap = false :=
  cleanLoop_exists hn ha (Cells.ids_nodup _)
    (fun _ htm => Option.isSome_iff_exists.mp (Cells.mem_ids.mp htm)) hr hw

end Clean

end PubSub
