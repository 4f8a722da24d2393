import PubSub.Bus.Table

/-! The two-way lists between topics and subscribers under every edit that the
calls make, and the edits of one topic's entries. -/

namespace PubSub

open Lib

/-- The entry of `su` taken out of a list. -/
def without (su : SubId) (sls : List SubscriberList) : List SubscriberList :=
  sls.eraseP fun sl => sl.su = su

/-- The entries of a list that are not of `su`. -/
def others (su : SubId) (sls : List SubscriberList) : List SubscriberList :=
  sls.filter fun sl => sl.su ≠ su

section Without
variable {su x : SubId} {sls : List SubscriberList}

theorem mem_map_su : x ∈ sls.map SubscriberList.su ↔ sls.any (fun sl => sl.su = x) = true := by
  simp

theorem map_without (su : SubId) (sls : List SubscriberList) :
    (without su sls).map SubscriberList.su = (sls.map SubscriberList.su).erase su := by
  induction sls with
  | nil => rfl
  | cons sl sls ih =>
    by_cases h : sl.su = su
    · subst h
      simp [without]
    · have hcons : without su (sl :: sls) = sl :: without su sls := by simp [without, h]
      rw [hcons, List.map_cons, List.map_cons, List.erase_cons_tail (by simpa using h), ih]

theorem without_eq_self (h : su ∉ sls.map SubscriberList.su) : without su sls = sls := by
  rw [without, List.eraseP_eq_self_iff]
  intro sl hsl
  rw [decide_eq_true_eq]
  rintro rfl
  exact h (List.mem_map_of_mem hsl)

theorem mem_map_without (hd : (sls.map SubscriberList.su).Nodup) :
    x ∈ (without su sls).map SubscriberList.su ↔ x ≠ su ∧ x ∈ sls.map SubscriberList.su := by
  rw [map_without, hd.mem_erase_iff]

theorem nodup_without (hd : (sls.map SubscriberList.su).Nodup) :
    ((without su sls).map SubscriberList.su).Nodup := by
  rw [map_without]
  exact hd.erase su

theorem mem_others {sl : SubscriberList} : sl ∈ others su sls ↔ sl ∈ sls ∧ sl.su ≠ su := by
  rw [others, List.mem_filter, decide_eq_true_eq]

theorem others_subset (su : SubId) (sls : List SubscriberList) : others su sls ⊆ sls :=
  List.filter_subset_self _

theorem others_eq_self (h : su ∉ sls.map SubscriberList.su) : others su sls = sls := by
  rw [others, List.filter_eq_self]
  intro sl hsl
  rw [decide_eq_true_eq]
  rintro rfl
  exact h (List.mem_map_of_mem hsl)

theorem others_snoc {sl : SubscriberList} (h : sl.su = su) : others su (sls ++ [sl]) = others su sls := by
  simp [others, h]

theorem others_without (su : SubId) (sls : List SubscriberList) :
    others su (without su sls) = others su sls := by
  induction sls with
  | nil => rfl
  | cons sl sls ih =>
    by_cases h : sl.su = su
    · simp [without, others, h]
    · have hcons : without su (sl :: sls) = sl :: without su sls := by simp [without, h]
      rw [hcons, others, List.filter_cons_of_pos (by simpa using h), others,
        List.filter_cons_of_pos (by simpa using h)]
      exact congrArg (sl :: ·) ih

/-- A list with at most one entry of `su` loses it. -/
theorem without_eq_others (hd : (sls.map SubscriberList.su).Nodup) :
    without su sls = others su sls := by
  rw [← others_without, others_eq_self]
  rw [mem_map_without hd]
  exact fun h => h.1 rfl

end Without

/-! ### The edits of the links -/

namespace Links
variable {entries : TopicId → List SubscriberList} {subsOf : SubId → Option (List TopicId)}
  {su : SubId} {subs : List TopicId} {tm : TopicId}

/-- A topic that a subscriber lists has an entry. -/
theorem ne_nil_of_mem (h : Links entries subsOf) (hsu : subsOf su = some subs) (htm : tm ∈ subs) :
    entries tm ≠ [] := by
  intro hnil
  have := (h.mem_iff su subs hsu tm).mp htm
  rw [hnil] at this
  cases this

/-- A new subscription, at the end of both lists. -/
theorem add (h : Links entries subsOf) (hsu : subsOf su = some subs) {sl : SubscriberList}
    (hsl : sl.su = su) (hnew : su ∉ (entries tm).map SubscriberList.su) :
    Links (Function.update entries tm (entries tm ++ [sl]))
      (Function.update subsOf su (some (subs ++ [tm]))) := by
  have hmem : ∀ x i, x ∈ (Function.update entries tm (entries tm ++ [sl]) i).map SubscriberList.su ↔
      x ∈ (entries i).map SubscriberList.su ∨ (x = su ∧ i = tm) := by
    intro x i
    rw [Function.update_apply]
    split
    case isTrue hi => simp [hi, hsl]
    case isFalse hi => simp [hi]
  have htm : tm ∉ subs := fun hin => hnew ((h.mem_iff su subs hsu tm).mp hin)
  constructor
  · intro i
    rw [Function.update_apply]
    split
    · rw [List.map_append, List.nodup_append]
      refine ⟨h.entriesNodup tm, List.nodup_singleton _, ?_⟩
      rintro x hx y hy rfl
      rw [List.map_singleton, List.mem_singleton, hsl] at hy
      exact hnew (hy ▸ hx)
    · exact h.entriesNodup i
  · intro x l hx
    rw [Function.update_apply] at hx
    split at hx
    · cases hx
      rw [List.nodup_append]
      refine ⟨h.subsNodup su subs hsu, List.nodup_singleton _, ?_⟩
      rintro i hi j hj rfl
      exact htm (List.mem_singleton.mp hj ▸ hi)
    · exact h.subsNodup x l hx
  · intro x l hx i
    rw [hmem]
    rw [Function.update_apply] at hx
    split at hx
    case isTrue hxs =>
      cases hx
      subst hxs
      rw [List.mem_append, List.mem_singleton, h.mem_iff x subs hsu i]
      simp
    case isFalse hxs => simp [h.mem_iff x l hx i, hxs]
  · intro i e he
    have hlive : (subsOf e.su).isSome := by
      rw [Function.update_apply] at he
      split at he
      · rcases List.mem_append.mp he with he | he
        · exact h.live tm e he
        · rw [List.mem_singleton.mp he, hsl, hsu]
          rfl
      · exact h.live i e he
    rw [Function.update_apply]
    split
    · rfl
    · exact hlive

/-- Entries of one subscriber taken out of topics: of those it no longer lists. -/
theorem remove (h : Links entries subsOf) (hsu : subsOf su = some subs) {left : List TopicId}
    {entries' : TopicId → List SubscriberList} (hleft : left.Nodup)
    (hsub : ∀ i, i ∈ left → i ∈ subs)
    (hentries : ∀ i, entries' i = if i ∈ left then entries i else without su (entries i)) :
    Links entries' (Function.update subsOf su (some left)) := by
  have hmem : ∀ x i, x ∈ (entries' i).map SubscriberList.su ↔
      x ∈ (entries i).map SubscriberList.su ∧ (x = su → i ∈ left) := by
    intro x i
    rw [hentries]
    split
    case isTrue hi => simp [hi]
    case isFalse hi => rw [mem_map_without (h.entriesNodup i), and_comm]; simp [hi]
  constructor
  · intro i
    rw [hentries]
    split
    · exact h.entriesNodup i
    · exact nodup_without (h.entriesNodup i)
  · intro x l hx
    rw [Function.update_apply] at hx
    split at hx
    · cases hx
      exact hleft
    · exact h.subsNodup x l hx
  · intro x l hx i
    rw [hmem]
    rw [Function.update_apply] at hx
    split at hx
    case isTrue hxs =>
      cases hx
      subst hxs
      constructor
      · intro hi
        exact ⟨(h.mem_iff x subs hsu i).mp (hsub i hi), fun _ => hi⟩
      · rintro ⟨-, hi⟩
        exact hi rfl
    case isFalse hxs => simp [h.mem_iff x l hx i, hxs]
  · intro i e he
    have he' : e ∈ entries i := by
      rw [hentries] at he
      split at he
      · exact he
      · exact List.mem_of_mem_eraseP he
    rw [Function.update_apply]
    split
    · rfl
    · exact h.live i e he'

/-- A new subscriber lists nothing, and no entry is its. -/
theorem new (h : Links entries subsOf) (hsu : subsOf su = none) :
    Links entries (Function.update subsOf su (some [])) := by
  have hnot : ∀ i, su ∉ (entries i).map SubscriberList.su := by
    intro i hi
    obtain ⟨sl, hsl, rfl⟩ := List.mem_map.mp hi
    have := h.live i sl hsl
    rw [hsu] at this
    cases this
  constructor
  · exact h.entriesNodup
  · intro x l hx
    rw [Function.update_apply] at hx
    split at hx
    · cases hx
      exact List.nodup_nil
    · exact h.subsNodup x l hx
  · intro x l hx i
    rw [Function.update_apply] at hx
    split at hx
    case isTrue hxs =>
      cases hx
      subst hxs
      simpa using hnot i
    case isFalse => exact h.mem_iff x l hx i
  · intro i e he
    rw [Function.update_apply]
    split
    · rfl
    · exact h.live i e he

/-- A subscriber that lists nothing can be freed. -/
theorem free (h : Links entries subsOf) (hsu : subsOf su = some []) :
    Links entries (Function.update subsOf su none) := by
  constructor
  · exact h.entriesNodup
  · intro x l hx
    rw [Function.update_apply] at hx
    split at hx
    · cases hx
    · exact h.subsNodup x l hx
  · intro x l hx
    rw [Function.update_apply] at hx
    split at hx
    · cases hx
    · exact h.mem_iff x l hx
  · intro i e he
    have hne : e.su ≠ su := by
      rintro rfl
      have := (h.mem_iff _ _ hsu i).mpr (List.mem_map_of_mem he)
      cases this
    rw [Function.update_of_ne hne]
    exact h.live i e he

end Links

/-! ### The edits of a topic's entries -/

/-- The table `b` is `a` with the entries `sls` at the topic `tm` of that name. -/
structure EntriesEdit (a b : Cells TopicMap) (tm : TopicId) (name : Str)
    (sls : List SubscriberList) : Prop where
  names : Names b
  alive : NoDeadTopic b
  entriesOf : entriesOf b = Function.update (entriesOf a) tm sls
  entriesAt : entriesAt b = Function.update (entriesAt a) name sls
  stickyAt : stickyAt b = stickyAt a
  stickies : stickies b = stickies a

section Edit
variable {topicMap : Cells TopicMap} {name : Str} {tm : TopicId} {t : TopicMap}

theorem entriesEdit_set (hn : Names topicMap) (ha : NoDeadTopic topicMap)
    (ht : topicMap.get tm = some t) (hname : t.topic = name) (sls : List SubscriberList) :
    EntriesEdit topicMap (topicMap.set tm (TopicMap.unlessDead { t with subscribers := sls })) tm
      name sls := by
  subst hname
  have htopic : ∀ t' ∈ TopicMap.unlessDead { t with subscribers := sls }, t'.topic = t.topic := by
    intro t' h
    rw [(mem_unlessDead.mp h).1]
  have hat := topicAt_set hn ht htopic
  refine ⟨hn.set ht htopic, ha.set ht fun t' h => ?_, ?_, ?_, ?_, ?_⟩
  · obtain ⟨rfl, hd⟩ := mem_unlessDead.mp h
    exact hd
  · rw [entriesOf_set ht, unlessDead_subscribers]
  · funext x
    rw [entriesAt, hat, Function.update_apply, Function.update_apply]
    split
    · exact unlessDead_subscribers _
    · rfl
  · funext x
    rw [stickyAt, hat, Function.update_apply]
    split
    case isTrue hx =>
      rw [unlessDead_sticky, hx, stickyAt, topicAt_topic hn ht]
      rfl
    case isFalse => rfl
  · have := stickies_set ht (o := TopicMap.unlessDead { t with subscribers := sls })
    rw [unlessDead_sticky] at this
    exact add_right_cancel this

theorem entriesEdit_create (hn : Names topicMap) (ha : NoDeadTopic topicMap)
    (hf : fetchTopic topicMap name = none) (hs : ' ' ∉ name) (sl : SubscriberList) :
    EntriesEdit topicMap ((createTopic topicMap name).2.set topicMap.next
      (some ⟨name, [sl], none⟩)) topicMap.next name [sl] := by
  have hget : (createTopic topicMap name).2.get topicMap.next = some ⟨name, [], none⟩ :=
    Cells.get_alloc_self topicMap ⟨name, [], none⟩
  have hnew := hn.create hf hs
  have htopic : ∀ t' ∈ some (⟨name, [sl], none⟩ : TopicMap), t'.topic = name := by
    rintro t' ⟨⟩
    rfl
  have hat := topicAt_set hnew hget htopic
  rw [topicAt_create hn hf hs, Function.update_idem] at hat
  refine ⟨hnew.set hget htopic, fun i t' hi => ?_, ?_, ?_, ?_, ?_⟩
  · rw [Cells.get_set hget] at hi
    split at hi
    case isTrue =>
      cases hi
      simp [TopicMap.Dead]
    case isFalse hne =>
      rw [createTopic, Cells.get_alloc, if_neg hne] at hi
      exact ha i t' hi
  · rw [entriesOf_set hget, entriesOf_create]
    rfl
  · funext x
    rw [entriesAt, hat, Function.update_apply, Function.update_apply]
    split
    · rfl
    · rfl
  · funext x
    rw [stickyAt, hat, Function.update_apply]
    split
    case isTrue hx =>
      rw [hx, stickyAt, topicAt_eq_none.mpr hf]
      rfl
    case isFalse => rfl
  · have := stickies_set hget (o := some ⟨name, [sl], none⟩)
    rw [stickies_create] at this
    simpa using this

end Edit

end PubSub
