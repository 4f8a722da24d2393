import PubSub.Bus.References

/-! The topic table as a finite map from names to topics, and the two lists that
tie topics and subscribers together. Every edit of the table is a new topic or a
new content of one topic, so each notion here has one lemma for either. -/

namespace PubSub

open Lib

/-- The topic of that name, as the hash table finds it. -/
def topicAt (topicMap : Cells TopicMap) (name : Str) : Option TopicMap :=
  (fetchTopic topicMap name).bind topicMap.get

def entriesAt (topicMap : Cells TopicMap) (name : Str) : List SubscriberList :=
  (topicAt topicMap name).elim [] TopicMap.subscribers

def stickyAt (topicMap : Cells TopicMap) (name : Str) : Option MsgId :=
  (topicAt topicMap name).bind TopicMap.sticky

/-- The entries of the topic at an address; a freed topic has none. -/
def entriesOf (topicMap : Cells TopicMap) (tm : TopicId) : List SubscriberList :=
  (topicMap.get tm).elim [] TopicMap.subscribers

/-- The number of topics that retain each message. -/
def stickies (topicMap : Cells TopicMap) (i : MsgId) : ℕ := topicMap.sum fun t => ownRef t.sticky i

/-- A topic that nothing keeps in the table. -/
def TopicMap.Dead (t : TopicMap) : Prop := t.subscribers = [] ∧ t.sticky = none

instance (t : TopicMap) : Decidable t.Dead := inferInstanceAs (Decidable (_ ∧ _))

/-- What `free_topic_if_empty` leaves of a topic. -/
def TopicMap.unlessDead (t : TopicMap) : Option TopicMap := if t.Dead then none else some t

/-- Names are unique and hold no space. -/
structure Names (topicMap : Cells TopicMap) : Prop where
  unique : ∀ i j a b, topicMap.get i = some a → topicMap.get j = some b → a.topic = b.topic → i = j
  noSpace : ∀ i a, topicMap.get i = some a → ' ' ∉ a.topic

def NoDeadTopic (topicMap : Cells TopicMap) : Prop :=
  ∀ i t, topicMap.get i = some t → ¬ t.Dead

/-- The entries of the topics and the lists `subs` of the subscribers are the two
directions of one relation between live objects. -/
structure Links (entries : TopicId → List SubscriberList) (subsOf : SubId → Option (List TopicId)) :
    Prop where
  entriesNodup : ∀ tm, ((entries tm).map SubscriberList.su).Nodup
  subsNodup : ∀ su subs, subsOf su = some subs → subs.Nodup
  mem_iff : ∀ su subs, subsOf su = some subs →
    ∀ tm, tm ∈ subs ↔ su ∈ (entries tm).map SubscriberList.su
  live : ∀ tm, ∀ sl ∈ entries tm, (subsOf sl.su).isSome

section Lookup
variable {topicMap : Cells TopicMap} {name : Str} {tm : TopicId} {t : TopicMap}

theorem fetchTopic_some (h : fetchTopic topicMap name = some tm) :
    ∃ t, topicMap.get tm = some t ∧ t.topic = name := by
  obtain ⟨t, ht, hp⟩ := Cells.find?_some h
  exact ⟨t, ht, by simpa using hp⟩

theorem fetchTopic_none (h : fetchTopic topicMap name = none) (ht : topicMap.get tm = some t) :
    t.topic ≠ name := by
  simpa using Cells.find?_none h ht

theorem fetchTopic_topic (hn : Names topicMap) (ht : topicMap.get tm = some t) :
    fetchTopic topicMap t.topic = some tm := by
  refine Cells.find?_eq_some ht (by simp) fun j b hb hp => ?_
  exact hn.unique j tm b t hb ht (by simpa using hp)

theorem topicAt_topic (hn : Names topicMap) (ht : topicMap.get tm = some t) :
    topicAt topicMap t.topic = some t := by
  rw [topicAt, fetchTopic_topic hn ht, Option.bind_some, ht]

theorem topicAt_eq_some (hn : Names topicMap) :
    topicAt topicMap name = some t ↔ ∃ tm, topicMap.get tm = some t ∧ t.topic = name := by
  constructor
  · intro h
    obtain ⟨tm, hf, ht⟩ := Option.bind_eq_some_iff.mp h
    obtain ⟨t', ht', hname⟩ := fetchTopic_some hf
    rw [ht] at ht'
    cases ht'
    exact ⟨tm, ht, hname⟩
  · rintro ⟨tm, ht, rfl⟩
    exact topicAt_topic hn ht

theorem topicAt_of_fetch (hf : fetchTopic topicMap name = some tm)
    (ht : topicMap.get tm = some t) : topicAt topicMap name = some t := by
  rw [topicAt, hf, Option.bind_some, ht]

theorem topicAt_eq_none : topicAt topicMap name = none ↔ fetchTopic topicMap name = none := by
  constructor
  · intro h
    cases hf : fetchTopic topicMap name with
    | none => rfl
    | some tm =>
      obtain ⟨t, ht, -⟩ := fetchTopic_some hf
      rw [topicAt_of_fetch hf ht] at h
      cases h
  · intro h
    rw [topicAt, h, Option.bind_none]

/-- The entries of a name are those of an address. -/
theorem entriesAt_cases (topicMap : Cells TopicMap) (name : Str) :
    entriesAt topicMap name = [] ∨ ∃ tm, entriesAt topicMap name = entriesOf topicMap tm := by
  cases ht : topicAt topicMap name with
  | none =>
    left
    rw [entriesAt, ht]
    rfl
  | some t =>
    right
    obtain ⟨tm, -, htm⟩ := Option.bind_eq_some_iff.mp ht
    refine ⟨tm, ?_⟩
    rw [entriesAt, ht, entriesOf, htm]

theorem exists_entriesOf {sl : SubscriberList} (h : sl ∈ entriesAt topicMap name) :
    ∃ tm, sl ∈ entriesOf topicMap tm := by
  rcases entriesAt_cases topicMap name with hnil | ⟨tm, htm⟩
  · rw [hnil] at h
    cases h
  · exact ⟨tm, htm ▸ h⟩

theorem nodup_entriesAt {subsOf : SubId → Option (List TopicId)}
    (h : Links (entriesOf topicMap) subsOf) (name : Str) :
    ((entriesAt topicMap name).map SubscriberList.su).Nodup := by
  rcases entriesAt_cases topicMap name with hnil | ⟨tm, htm⟩
  · rw [hnil]
    exact List.nodup_nil
  · rw [htm]
    exact h.entriesNodup tm

theorem stickies_pos {i : MsgId} (h : stickyAt topicMap name = some i) : 0 < stickies topicMap i := by
  obtain ⟨t, ht, hst⟩ := Option.bind_eq_some_iff.mp h
  obtain ⟨tm, -, htm⟩ := Option.bind_eq_some_iff.mp ht
  have hle := Cells.le_sum htm fun t => ownRef t.sticky i
  rw [hst, ownRef_self] at hle
  exact hle

/-- Two tables with the same topics by name are told apart by no lookup. -/
theorem topicAt_ext {topicMap' : Cells TopicMap} {f : Str → Option TopicMap}
    (hn : Names topicMap') (hf : ∀ name t, f name = some t ↔ ∃ tm, topicMap'.get tm = some t ∧
      t.topic = name) : topicAt topicMap' = f := by
  funext name
  apply Option.ext
  intro t
  rw [hf, topicAt_eq_some hn]

end Lookup

section Edit
variable {topicMap : Cells TopicMap} {name : Str} {tm : TopicId} {t : TopicMap}
  {o : Option TopicMap}

theorem Names.set (hn : Names topicMap) (ht : topicMap.get tm = some t)
    (ho : ∀ t' ∈ o, t'.topic = t.topic) : Names (topicMap.set tm o) := by
  have hold : ∀ i a, (topicMap.set tm o).get i = some a →
      ∃ b, topicMap.get i = some b ∧ b.topic = a.topic := by
    intro i a hi
    rw [Cells.get_set ht] at hi
    split at hi
    case isTrue h => exact ⟨t, h ▸ ht, (ho a hi).symm⟩
    case isFalse => exact ⟨a, hi, rfl⟩
  constructor
  · intro i j a b hi hj hab
    obtain ⟨a', ha', hta⟩ := hold i a hi
    obtain ⟨b', hb', htb⟩ := hold j b hj
    exact hn.unique i j a' b' ha' hb' (hta.trans (hab.trans htb.symm))
  · intro i a hi
    obtain ⟨a', ha', hta⟩ := hold i a hi
    exact hta ▸ hn.noSpace i a' ha'

theorem Names.create (hn : Names topicMap) (hf : fetchTopic topicMap name = none)
    (hs : ' ' ∉ name) : Names (createTopic topicMap name).2 := by
  constructor
  · intro i j a b hi hj hab
    simp only [createTopic, Cells.get_alloc] at hi hj
    split at hi <;> split at hj
    case isTrue.isTrue h₁ h₂ => rw [h₁, h₂]
    case isTrue.isFalse =>
      cases hi
      exact absurd hab.symm (fetchTopic_none hf hj)
    case isFalse.isTrue =>
      cases hj
      exact absurd hab (fetchTopic_none hf hi)
    case isFalse.isFalse => exact hn.unique i j a b hi hj hab
  · intro i a hi
    simp only [createTopic, Cells.get_alloc] at hi
    split at hi
    · cases hi
      exact hs
    · exact hn.noSpace i a hi

/-- An edit of one topic is an update of the map. -/
theorem topicAt_set (hn : Names topicMap) (ht : topicMap.get tm = some t)
    (ho : ∀ t' ∈ o, t'.topic = t.topic) :
    topicAt (topicMap.set tm o) = Function.update (topicAt topicMap) t.topic o := by
  apply topicAt_ext (hn.set ht ho)
  intro name a
  by_cases hname : name = t.topic
  · subst hname
    rw [Function.update_self]
    constructor
    · rintro rfl
      exact ⟨tm, by rw [Cells.get_set ht, if_pos rfl], ho a rfl⟩
    · rintro ⟨i, hi, htopic⟩
      rw [Cells.get_set ht] at hi
      split at hi
      case isTrue => exact hi
      case isFalse h => exact absurd (hn.unique i tm a t hi ht htopic) h
  · rw [Function.update_of_ne hname, topicAt_eq_some hn]
    apply exists_congr
    intro i
    rw [Cells.get_set ht]
    split
    case isTrue h =>
      subst h
      constructor
      · rintro ⟨ha, rfl⟩
        rw [ht] at ha
        cases ha
        exact absurd rfl hname
      · rintro ⟨ha, rfl⟩
        exact absurd (ho a ha) hname
    case isFalse => rfl

theorem topicAt_create (hn : Names topicMap) (hf : fetchTopic topicMap name = none)
    (hs : ' ' ∉ name) :
    topicAt (createTopic topicMap name).2 =
      Function.update (topicAt topicMap) name (some ⟨name, [], none⟩) := by
  have hnew := hn.create hf hs
  apply topicAt_ext hnew
  intro x a
  by_cases hx : x = name
  · subst hx
    rw [Function.update_self]
    constructor
    · rintro ⟨⟩
      exact ⟨topicMap.next, Cells.get_alloc_self _ _, rfl⟩
    · rintro ⟨i, hi, htopic⟩
      simp only [createTopic, Cells.get_alloc] at hi
      split at hi
      case isTrue => exact hi
      case isFalse => exact absurd htopic (fetchTopic_none hf hi)
  · rw [Function.update_of_ne hx, topicAt_eq_some hn]
    apply exists_congr
    intro i
    simp only [createTopic, Cells.get_alloc]
    split
    case isTrue h =>
      subst h
      rw [Cells.get_next]
      constructor
      · rintro ⟨h, -⟩
        cases h
      · rintro ⟨⟨⟩, rfl⟩
        exact absurd rfl hx
    case isFalse => rfl

theorem entriesOf_set (ht : topicMap.get tm = some t) :
    entriesOf (topicMap.set tm o) =
      Function.update (entriesOf topicMap) tm (o.elim [] TopicMap.subscribers) := by
  funext i
  rw [entriesOf, Cells.get_set ht, Function.update_apply]
  split <;> rfl

/-- A new topic has no entries, like a freed one. -/
@[simp] theorem entriesOf_create (topicMap : Cells TopicMap) (name : Str) :
    entriesOf (createTopic topicMap name).2 = entriesOf topicMap := by
  funext i
  simp only [entriesOf, createTopic, Cells.get_alloc]
  split
  case isTrue h =>
    rw [h, Cells.get_next]
    rfl
  case isFalse => rfl

theorem stickies_set (ht : topicMap.get tm = some t) :
    stickies (topicMap.set tm o) + ownRef t.sticky =
      stickies topicMap + ownRef (o.bind TopicMap.sticky) := by
  funext i
  have := Cells.sum_set ht o fun t => ownRef t.sticky i
  rw [Pi.add_apply, Pi.add_apply, stickies, this, stickies]
  cases o <;> simp

@[simp] theorem stickies_create (topicMap : Cells TopicMap) (name : Str) :
    stickies (createTopic topicMap name).2 = stickies topicMap := by
  funext i
  rw [stickies, createTopic, Cells.sum_alloc, ownRef_none]
  rfl

theorem NoDeadTopic.set (ha : NoDeadTopic topicMap) (ht : topicMap.get tm = some t)
    (ho : ∀ t' ∈ o, ¬ t'.Dead) : NoDeadTopic (topicMap.set tm o) := by
  intro i t' hi
  rw [Cells.get_set ht] at hi
  split at hi
  · exact ho t' hi
  · exact ha i t' hi

theorem mem_unlessDead {t t' : TopicMap} : t' ∈ t.unlessDead ↔ t' = t ∧ ¬ t.Dead := by
  rw [TopicMap.unlessDead]
  split
  case isTrue h => simp [h]
  case isFalse h => simp [h, eq_comm]

theorem unlessDead_subscribers (t : TopicMap) :
    t.unlessDead.elim [] TopicMap.subscribers = t.subscribers := by
  rw [TopicMap.unlessDead]
  split
  case isTrue h => exact h.1.symm
  case isFalse => rfl

theorem unlessDead_sticky (t : TopicMap) : t.unlessDead.bind TopicMap.sticky = t.sticky := by
  rw [TopicMap.unlessDead]
  split
  case isTrue h => exact h.2.symm
  case isFalse => rfl

/-- A change of a topic and the test that follows it are one edit. -/
theorem freeTopicIfEmpty_modify (ht : topicMap.get tm = some t) (t' : TopicMap) :
    freeTopicIfEmpty (topicMap.modify tm fun _ => t') tm =
      some (decide t'.Dead, topicMap.set tm t'.unlessDead) := by
  rw [freeTopicIfEmpty, Cells.get_modify_self, ht, Option.map_some]
  simp only [Option.bind_eq_bind, Option.bind_some, TopicMap.unlessDead]
  have htest : (t'.subscribers = [] ∧ t'.sticky = none) = t'.Dead := rfl
  by_cases hd : t'.Dead
  · rw [if_pos hd, if_pos (htest ▸ hd), Cells.free_modify ht, decide_eq_true hd]
  · rw [if_neg hd, if_neg (htest ▸ hd), Cells.modify_eq_set ht, decide_eq_false hd]

end Edit

end PubSub
