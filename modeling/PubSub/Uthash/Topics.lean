import PubSub.Uthash.Reads
import PubSub.Bus.Publish
import PubSub.Bus.Subscriptions

/-! `topic_map` as the hash table that it is, in step with the map from addresses to topics
that stands for it in the state of the program. -/

namespace PubSub.Topics

open Lib Uthash

/-- `topic_map`, with the topics. -/
abbrev Table := UtHash TopicMap

section Calls
variable (hash : Str → UInt32)

/-- `create_topic`. -/
def createTopic (s : Table) (topic : Str) : Option (TopicId × Table) := do
  let tm := s.elems.next
  let elem : Elem TopicMap :=
    ⟨{ topic := topic, subscribers := [], sticky := none },
      ⟨none, none, none, none, none, [], 0, 0⟩⟩
  let s ← hashAddKeyptr hash { s with elems := s.elems.alloc elem } topic tm
  some (tm, s)

/-- `fetch_topic`. -/
def fetchTopic (s : Table) (topic : Str) : Option (Option TopicId) := hashFindStr hash s topic

/-- `fetch_topic_create_if_not_exist`. -/
def fetchTopicCreateIfNotExist (s : Table) (topic : Str) : Option (TopicId × Table) := do
  match ← fetchTopic hash s topic with
  | some tm => some (tm, s)
  | none => createTopic hash s topic

/-- `free_topic_if_empty`. -/
def freeTopicIfEmpty (s : Table) (tm : TopicId) : Option (Bool × Table) := do
  let e ← s.elems.get tm
  if e.val.subscribers = [] ∧ e.val.sticky = none then do
    let s ← hashDelete s tm
    let elems ← s.elems.release tm
    some (true, { s with elems := elems })
  else some (false, s)

/-- A write to `tm->subscribers` or `tm->sticky`. -/
def setTopic (s : Table) (tm : TopicId) (subscribers : List SubscriberList)
    (sticky : Option MsgId) : Option Table := do
  let elems ← s.elems.write tm fun e =>
    { e with val := { e.val with subscribers := subscribers, sticky := sticky } }
  some { s with elems := elems }

/-- One round of the loop in `push_child_sticky`, with the messages it pushes. -/
def childSticky (pre : Str) (tm : TopicId) (x : Table × List MsgId) :
    Option (Table × List MsgId) := do
  let e ← x.1.elems.get tm
  if inSubtree pre e.val.topic then
    match e.val.sticky with
    | none => some x
    | some msg => some (x.1, x.2 ++ [msg])
  else some x

/-- The loop of `push_child_sticky`. -/
def childStickies (s : Table) (pre : Str) : Option (Table × List MsgId) :=
  hashIter Prod.fst (childSticky pre) (s, [])

/-- One round of the loop in `ps_clean_sticky`, with the messages it releases. -/
def cleanTopic (pre : Str) (tm : TopicId) (x : Table × List MsgId) :
    Option (Table × List MsgId) := do
  let e ← x.1.elems.get tm
  if inSubtree pre e.val.topic then
    match e.val.sticky with
    | none => some x
    | some msg => do
      let s ← setTopic x.1 tm e.val.subscribers none
      let (_, s) ← freeTopicIfEmpty s tm
      some (s, x.2 ++ [msg])
  else some x

/-- The loop of `ps_clean_sticky`. -/
def cleanSticky (s : Table) (pre : Str) : Option (Table × List MsgId) :=
  hashIter Prod.fst (cleanTopic pre) (s, [])

end Calls

/-! ### The map from addresses to topics -/

/-- Names are unique, and their lengths fit into an `unsigned`. -/
structure Keys (m : Cells TopicMap) : Prop where
  unique : ∀ i j a b, m.get i = some a → m.get j = some b → a.topic = b.topic → i = j
  short : ∀ i a, m.get i = some a → a.topic.length < 2 ^ 32

/-- Topics keep their names. -/
theorem Keys.mono {m m' : Cells TopicMap} (h : Keys m)
    (hm : ∀ i a, m'.get i = some a → ∃ b, m.get i = some b ∧ b.topic = a.topic) : Keys m' := by
  constructor
  · intro i j a b ha hb hab
    obtain ⟨a', ha', hna⟩ := hm i a ha
    obtain ⟨b', hb', hnb⟩ := hm j b hb
    exact h.unique i j a' b' ha' hb' (hna.trans (hab.trans hnb.symm))
  · intro i a ha
    obtain ⟨a', ha', hna⟩ := hm i a ha
    exact hna ▸ h.short i a' ha'

/-- A topic and the key that it is filed under. -/
def entry (e : Elem TopicMap) : TopicMap × Str := (e.val, e.hh.key)

/-- `s` is the hash table of the topics `m`. -/
structure Represents (hash : Str → UInt32) (s : Table) (m : Cells TopicMap) : Prop where
  rep : Rep hash s m.ids
  next : s.elems.next = m.next
  topics : ∀ i, (s.elems.get i).map entry = (m.get i).map fun t => (t, t.topic)
  keys : Keys m

namespace Represents
variable {hash : Str → UInt32} {s : Table} {m : Cells TopicMap} {topic : Str} {tm : TopicId}
  {t : TopicMap}

theorem init : Represents hash ⟨.empty, .empty, none⟩ .empty :=
  ⟨.init, rfl, fun _ => rfl, nofun, nofun⟩

section
variable (h : Represents hash s m)
include h

theorem get (ht : m.get tm = some t) :
    ∃ e, s.elems.get tm = some e ∧ e.val = t ∧ e.hh.key = t.topic := by
  have he := h.topics tm
  rw [ht, Option.map_some] at he
  obtain ⟨e, he, heq⟩ := Option.map_eq_some_iff.mp he
  exact ⟨e, he, congrArg Prod.fst heq, congrArg Prod.snd heq⟩

theorem get_none (ht : m.get tm = none) : s.elems.get tm = none := by
  have he := h.topics tm
  rw [ht, Option.map_none] at he
  exact Option.map_eq_none_iff.mp he

theorem keyAt_eq (i : ℕ) : keyAt s.elems i = (m.get i).map TopicMap.topic := by
  have hi := congrArg (Option.map Prod.snd) (h.topics i)
  rw [Option.map_map, Option.map_map] at hi
  exact hi

theorem fetchTopic (hlen : topic.length < 2 ^ 32) :
    Topics.fetchTopic hash s topic = some (PubSub.fetchTopic m topic) := by
  have hkeys : ∀ i ∈ m.ids, ∀ k ∈ keyAt s.elems i, k.length < 2 ^ 32 := by
    intro i _ k hk
    rw [h.keyAt_eq] at hk
    obtain ⟨t, ht, rfl⟩ := Option.map_eq_some_iff.mp hk
    exact h.keys.short i t ht
  obtain ⟨o, hfind, hsome, hnone⟩ := h.rep.find hkeys hlen
  rw [Topics.fetchTopic, hfind, Option.some.injEq]
  cases o with
  | some tm =>
    have hkey := (hsome tm rfl).2
    rw [h.keyAt_eq] at hkey
    obtain ⟨t, ht, hname⟩ := Option.map_eq_some_iff.mp hkey
    refine (Cells.find?_eq_some ht (by simpa using hname) fun j b hb hp => ?_).symm
    exact h.keys.unique j tm b t hb ht ((of_decide_eq_true hp).trans hname.symm)
  | none =>
    cases hf : PubSub.fetchTopic m topic with
    | none => rfl
    | some tm =>
      obtain ⟨t, ht, hname⟩ := fetchTopic_some hf
      have hin : tm ∈ m.ids := Cells.mem_ids.mpr (by rw [ht]; rfl)
      exact absurd (by rw [h.keyAt_eq, ht, Option.map_some, hname]) (hnone rfl tm hin)

/-- A new topic. -/
theorem createTopic (hroom : Room s) (hlen : topic.length < 2 ^ 32)
    (hnew : PubSub.fetchTopic m topic = none) :
    ∃ s', Topics.createTopic hash s topic = some (m.next, s') ∧
      Represents hash s' (PubSub.createTopic m topic).2 := by
  let elem : Elem TopicMap :=
    ⟨{ topic := topic, subscribers := [], sticky := none },
      ⟨none, none, none, none, none, [], 0, 0⟩⟩
  have hnot : m.next ∉ m.ids := by
    rw [Cells.mem_ids, Cells.get_next]
    simp
  have hother : ∀ i, i ≠ m.next → (s.elems.alloc elem).get i = s.elems.get i := by
    intro i hi
    rw [Cells.get_alloc, if_neg (h.next ▸ hi)]
  have hrep : Rep hash { s with elems := s.elems.alloc elem } m.ids :=
    h.rep.congr fun i hi => by rw [hother i (ne_of_mem_of_not_mem hi hnot)]
  have helem : (s.elems.alloc elem).get m.next = some elem := by
    rw [← h.next, Cells.get_alloc_self]
  obtain ⟨s', hadd, hrep', hadded⟩ := hrep.add hroom hnot helem topic
  refine ⟨s', by simp [Topics.createTopic, h.next, elem, hadd], ?_,
    hadded.next.trans (congrArg (· + 1) h.next), fun i => ?_, ?_, fun i a ha => ?_⟩
  · rw [PubSub.createTopic, Cells.ids_alloc]
    exact hrep'
  · rw [PubSub.createTopic, Cells.get_alloc]
    split
    case isTrue hi =>
      obtain ⟨e', he', hval, hkey⟩ := hadded.new
      rw [hi, he', Option.map_some, Option.map_some, entry, hval, hkey]
    case isFalse hi =>
      have hdata := hadded.other i hi
      rw [map_of_dataAt (f := entry) (g := fun d => (d.1, d.2.2.1)) (fun _ => rfl) hdata, hother i hi,
        h.topics]
  · intro i j a b ha hb hab
    rw [PubSub.createTopic, Cells.get_alloc] at ha hb
    split at ha <;> split at hb
    case isTrue.isTrue hi hj => exact hi.trans hj.symm
    case isTrue.isFalse hi hj =>
      cases ha
      exact absurd hab.symm (fetchTopic_none hnew hb)
    case isFalse.isTrue hi hj =>
      cases hb
      exact absurd hab (fetchTopic_none hnew ha)
    case isFalse.isFalse hi hj => exact h.keys.unique i j a b ha hb hab
  · rw [PubSub.createTopic, Cells.get_alloc] at ha
    split at ha
    · cases ha
      exact hlen
    · exact h.keys.short i a ha

/-- Other lists, or another sticky message. -/
theorem setTopic (ht : m.get tm = some t) (subscribers : List SubscriberList)
    (sticky : Option MsgId) :
    ∃ s', Topics.setTopic s tm subscribers sticky = some s' ∧ Represents hash s' (m.modify tm
      fun _ => { t with subscribers := subscribers, sticky := sticky }) := by
  obtain ⟨e, he, rfl, hkey⟩ := h.get ht
  let f : Elem TopicMap → Elem TopicMap := fun e =>
    { e with val := { e.val with subscribers := subscribers, sticky := sticky } }
  have hget : ∀ i, i ≠ tm → (s.elems.modify tm f).get i = s.elems.get i :=
    fun i hi => Cells.get_modify_of_ne _ f hi
  refine ⟨{ s with elems := s.elems.modify tm f }, by simp [Topics.setTopic, Cells.write, he, f],
    ?_, h.next, fun i => ?_, h.keys.mono fun i a ha => ?_⟩
  · rw [Cells.ids_modify]
    refine h.rep.congr fun i _ => ?_
    by_cases hi : i = tm
    · rw [hi, Cells.get_modify_self, he]
      rfl
    · rw [hget i hi]
  · by_cases hi : i = tm
    · rw [hi, Cells.get_modify_self, Cells.get_modify_self, he, ht]
      simp only [Option.map_some, entry, f, hkey]
    · rw [hget i hi, Cells.get_modify_of_ne _ _ hi, h.topics]
  · rw [Cells.get_modify] at ha
    split at ha
    case isTrue hi =>
      rw [hi, ht] at ha
      cases ha
      exact ⟨e.val, hi ▸ ht, rfl⟩
    case isFalse => exact ⟨a, ha, rfl⟩

/-- A topic that is freed if nothing keeps it. -/
theorem freeTopicIfEmpty (ht : m.get tm = some t) :
    ∃ r s' m', Topics.freeTopicIfEmpty s tm = some (r, s') ∧
      PubSub.freeTopicIfEmpty m tm = some (r, m') ∧ Represents hash s' m' := by
  obtain ⟨e, he, rfl, -⟩ := h.get ht
  by_cases hcond : e.val.subscribers = [] ∧ e.val.sticky = none
  · obtain ⟨a, b, hab⟩ := List.append_of_mem (Cells.mem_ids.mpr (by rw [ht]; rfl) : tm ∈ m.ids)
    have hrep := h.rep
    rw [hab] at hrep
    obtain ⟨s', hdel, hrep', hdata, hnext⟩ := hrep.delete
    have hnot : tm ∉ a ++ b := by
      have hnodup := m.ids_nodup
      rw [hab, List.nodup_middle, List.nodup_cons] at hnodup
      exact hnodup.1
    have hother : ∀ i, i ≠ tm → (s'.elems.free tm).get i = s'.elems.get i := by
      intro i hi
      rw [Cells.get_free, if_neg hi]
    have hrelease : s'.elems.release tm = some (s'.elems.free tm) := by
      have hlive : (s'.elems.get tm).isSome := by
        rw [← isSome_dataAt, hdata, isSome_dataAt, he]
        rfl
      obtain ⟨e', he'⟩ := Option.isSome_iff_exists.mp hlive
      rw [Cells.release, he']
      rfl
    refine ⟨true, { s' with elems := s'.elems.free tm }, m.free tm, ?_, ?_, ?_,
      hnext.trans h.next, fun i => ?_, h.keys.mono fun i x hx => ?_⟩
    · simp [Topics.freeTopicIfEmpty, he, hcond, hdel, hrelease]
    · simp [PubSub.freeTopicIfEmpty, ht, hcond]
    · rw [Cells.ids_free hab]
      exact hrep'.congr fun i hi => by rw [hother i (ne_of_mem_of_not_mem hi hnot)]
    · by_cases hi : i = tm
      · rw [hi, Cells.get_free, if_pos rfl, Cells.get_free, if_pos rfl]
        rfl
      · rw [hother i hi, Cells.get_free, if_neg hi, ← h.topics]
        exact map_of_dataAt (g := fun d => (d.1, d.2.2.1)) (fun _ => rfl) (congrFun hdata i)
    · rw [Cells.get_free] at hx
      split at hx
      · cases hx
      · exact ⟨x, hx, rfl⟩
  · exact ⟨false, s, m, by simp [Topics.freeTopicIfEmpty, he, hcond],
      by simp [PubSub.freeTopicIfEmpty, ht, hcond], h⟩

end

end Represents

/-! ### The loops -/

/-- One round of the loop in `ps_clean_sticky`, on the map. -/
def cleanCell (pre : Str) (x : Cells TopicMap × List MsgId) (tm : TopicId) :
    Option (Cells TopicMap × List MsgId) := do
  let t ← x.1.get tm
  if inSubtree pre t.topic then
    match t.sticky with
    | none => some x
    | some msg => do
      let m := x.1.modify tm fun _ => { t with sticky := none }
      let (_, m) ← PubSub.freeTopicIfEmpty m tm
      some (m, x.2 ++ [msg])
  else some x

section Loops
variable {hash : Str → UInt32} {s s' : Table} {m : Cells TopicMap} {pre : Str} {tm : TopicId}
  {msgs msgs' : List MsgId} {a b : List ℕ}

/-- The results of a step of either level, which agree. -/
def Agree {α : Type} (hash : Str → UInt32) (x : Option (Table × α))
    (y : Option (Cells TopicMap × α)) : Prop :=
  (x = none ∧ y = none) ∨
    ∃ s m r, x = some (s, r) ∧ y = some (m, r) ∧ Represents hash s m

theorem cleanTopic_agree (pre : Str) (tm : TopicId) (msgs : List MsgId) (h : Represents hash s m) :
    Agree hash (cleanTopic pre tm (s, msgs)) (cleanCell pre (m, msgs) tm) := by
  cases ht : m.get tm with
  | none => exact .inl ⟨by simp [cleanTopic, h.get_none ht], by simp [cleanCell, ht]⟩
  | some t =>
    obtain ⟨e, he, rfl, -⟩ := h.get ht
    by_cases hin : inSubtree pre e.val.topic = true
    case neg =>
      exact .inr ⟨s, m, msgs, by simp [cleanTopic, he, hin], by simp [cleanCell, ht, hin], h⟩
    cases hst : e.val.sticky with
    | none =>
      refine .inr ⟨s, m, msgs, ?_, ?_, h⟩
      · simp [cleanTopic, he, hin, hst]
      · simp [cleanCell, ht, hin, hst]
    | some msg =>
      obtain ⟨s₁, hset, h₁⟩ := h.setTopic ht e.val.subscribers none
      have ht₁ : (m.modify tm fun _ => { e.val with sticky := none }).get tm =
          some { e.val with sticky := none } := by
        rw [Cells.get_modify_self, ht]
        rfl
      obtain ⟨r, s₂, m₂, hfree, hfree', h₂⟩ := Represents.freeTopicIfEmpty h₁ ht₁
      refine .inr ⟨s₂, m₂, msgs ++ [msg], ?_, ?_, h₂⟩
      · simp [cleanTopic, he, hin, hst, hset, hfree]
      · simp [cleanCell, ht, hin, hst, hfree']

/-- The table loses at most the topic of the round. -/
theorem cleanCell_ids {x x' : Cells TopicMap × List MsgId} (h : cleanCell pre x tm = some x')
    (hx : x.1.ids = a ++ tm :: b) : x'.1.ids = a ++ tm :: b ∨ x'.1.ids = a ++ b := by
  obtain ⟨t, ht, h⟩ := Option.bind_eq_some_iff.mp h
  split at h
  case isFalse =>
    cases h
    exact .inl hx
  split at h
  · cases h
    exact .inl hx
  · obtain ⟨⟨r, m⟩, hfree, h⟩ := Option.bind_eq_some_iff.mp h
    cases h
    have hids : (x.1.modify tm fun _ => { t with sticky := none }).ids = a ++ tm :: b := by
      rw [Cells.ids_modify, hx]
    obtain ⟨t', -, hfree⟩ := Option.bind_eq_some_iff.mp hfree
    split at hfree
    · cases hfree
      exact .inr (Cells.ids_free hids)
    · cases hfree
      exact .inl hids

theorem cleanLoop_agree {tms : List TopicId} (h : Represents hash s m) :
    Agree hash (tms.foldlM (fun x tm => cleanTopic pre tm x) (s, msgs))
      (tms.foldlM (cleanCell pre) (m, msgs)) := by
  induction tms generalizing s m msgs with
  | nil => exact .inr ⟨s, m, msgs, rfl, rfl, h⟩
  | cons tm tms ih =>
    rw [List.foldlM_cons, List.foldlM_cons]
    rcases cleanTopic_agree pre tm msgs h with
      ⟨hs, hm⟩ | ⟨s', m', msgs', hs, hm, h'⟩
    · exact .inl ⟨by rw [hs]; rfl, by rw [hm]; rfl⟩
    · rw [hs, hm]
      exact ih h'

/-- `ps_clean_sticky` goes through the topics from the oldest to the newest, though it frees
some on the way. -/
theorem cleanSticky_agree (pre : Str) (h : Represents hash s m) :
    Agree hash (cleanSticky s pre) (m.ids.foldlM (cleanCell pre) (m, [])) := by
  have hrep : ∀ (x : Table × List MsgId) l, (∃ m, Represents hash x.1 m ∧ m.ids = l) →
      Rep hash x.1 l := by
    rintro x - ⟨m, hm, rfl⟩
    exact hm.rep
  have hbody : ∀ (x x' : Table × List MsgId) a i b,
      (∃ m, Represents hash x.1 m ∧ m.ids = a ++ i :: b) → cleanTopic pre i x = some x' →
      (∃ m, Represents hash x'.1 m ∧ m.ids = a ++ i :: b) ∨
        ∃ m, Represents hash x'.1 m ∧ m.ids = a ++ b := by
    rintro x x' a i b ⟨m, hm, hids⟩ hx'
    rcases cleanTopic_agree pre i x.2 hm with ⟨hs, -⟩ | ⟨s', m', msgs', hs, hm', h'⟩
    · rw [hs] at hx'
      cases hx'
    · obtain rfl : (s', msgs') = x' := Option.some.inj (hs.symm.trans hx')
      exact (cleanCell_ids hm' hids).imp (⟨m', h', ·⟩) (⟨m', h', ·⟩)
  rw [cleanSticky, hashIter_eq hrep hbody (x := (s, [])) ⟨m, h, rfl⟩]
  exact cleanLoop_agree h

/-- `push_child_sticky` has the messages in the order of their topics. -/
theorem childStickies_eq (h : Represents hash s m) :
    childStickies s pre = some (s, PubSub.childStickies m pre m.ids) := by
  have hbody : ∀ tm ∈ m.ids, ∀ msgs, childSticky pre tm (s, msgs) =
      some (s, msgs ++ PubSub.childStickies m pre [tm]) := by
    intro tm htm msgs
    obtain ⟨t, ht⟩ := Option.isSome_iff_exists.mp (Cells.mem_ids.mp htm)
    obtain ⟨e, he, rfl, -⟩ := h.get ht
    by_cases hin : inSubtree pre e.val.topic = true
    · cases hst : e.val.sticky with
      | none => simp [childSticky, PubSub.childStickies, he, ht, hin, hst]
      | some msg => simp [childSticky, PubSub.childStickies, he, ht, hin, hst]
    · simp [childSticky, PubSub.childStickies, he, ht, hin]
  have hloop : ∀ tms, (∀ tm ∈ tms, tm ∈ m.ids) → ∀ msgs,
      tms.foldlM (fun x tm => childSticky pre tm x) (s, msgs) =
        some (s, msgs ++ PubSub.childStickies m pre tms) := by
    intro tms htms
    induction tms with
    | nil => simp [PubSub.childStickies]
    | cons tm tms ih =>
      intro msgs
      rw [List.foldlM_cons, hbody tm (htms tm List.mem_cons_self), Option.bind_eq_bind,
        Option.bind_some, ih (fun x hx => htms x (List.mem_cons_of_mem tm hx)), List.append_assoc]
      simp [PubSub.childStickies, List.filterMap_cons]
      split <;> rfl
  have hrep : ∀ (x : Table × List MsgId) l, x.1 = s ∧ l = m.ids → Rep hash x.1 l := by
    rintro x l ⟨hx, rfl⟩
    exact hx ▸ h.rep
  have hkeep : ∀ (x x' : Table × List MsgId) a i b, x.1 = s ∧ a ++ i :: b = m.ids →
      childSticky pre i x = some x' →
      x'.1 = s ∧ a ++ i :: b = m.ids ∨ x'.1 = s ∧ a ++ b = m.ids := by
    rintro ⟨x, msgs⟩ x' a i b ⟨hx, hids⟩ hx'
    obtain rfl : x = s := hx
    rw [hbody i (hids ▸ by simp)] at hx'
    cases hx'
    exact .inl ⟨rfl, hids⟩
  rw [childStickies, hashIter_eq hrep hkeep (x := (s, [])) ⟨rfl, rfl⟩, hloop m.ids (fun _ => id),
    List.nil_append]

/-- What the loop of `ps_clean_sticky` does to the table in the state of the program. -/
theorem cleanTopic_cell (msgs : List MsgId) {Q : Type → Type} [PsQueue Q] [LawfulPsQueue Q] {s s' : Bus Q}
    (h : PubSub.cleanTopic pre s tm = some s') :
    ∃ msgs', cleanCell pre (s.topicMap, msgs) tm = some (s'.topicMap, msgs') := by
  obtain ⟨t, ht, h⟩ := Option.bind_eq_some_iff.mp h
  split at h
  case isFalse hin =>
    cases h
    exact ⟨msgs, by simp [cleanCell, ht, hin]⟩
  case isTrue hin =>
    cases hst : t.sticky with
    | none =>
      rw [hst] at h
      cases h
      exact ⟨msgs, by simp [cleanCell, ht, hin, hst]⟩
    | some msg =>
      rw [hst] at h
      obtain ⟨ms, -, h⟩ := Option.bind_eq_some_iff.mp h
      obtain ⟨⟨r, m⟩, hfree, h⟩ := Option.bind_eq_some_iff.mp h
      cases h
      exact ⟨msgs ++ [msg], by simp [cleanCell, ht, hin, hst, hfree]⟩

/-- After `ps_clean_sticky` the hash table is still that of the map. -/
theorem psCleanSticky_agree {Q : Type → Type} [PsQueue Q] [LawfulPsQueue Q] {x x' : Bus Q}
    (h : Represents hash s x.topicMap) (hx : psCleanSticky x pre = some x') :
    ∃ s' msgs, cleanSticky s pre = some (s', msgs) ∧ Represents hash s' x'.topicMap := by
  have hloop : ∀ (tms : List TopicId) (x : Bus Q) (msgs : List MsgId),
      tms.foldlM (PubSub.cleanTopic pre) x = some x' → ∃ msgs',
        tms.foldlM (cleanCell pre) (x.topicMap, msgs) = some (x'.topicMap, msgs') := by
    intro tms
    induction tms with
    | nil =>
      intro x msgs hx
      cases hx
      exact ⟨msgs, rfl⟩
    | cons tm tms ih =>
      intro x msgs hx
      rw [List.foldlM_cons] at hx
      obtain ⟨x₁, h₁, hx⟩ := Option.bind_eq_some_iff.mp hx
      obtain ⟨msgs₁, hcell⟩ := cleanTopic_cell msgs h₁
      obtain ⟨msgs', hrest⟩ := ih x₁ msgs₁ hx
      exact ⟨msgs', by rw [List.foldlM_cons, hcell]; exact hrest⟩
  obtain ⟨msgs, hcells⟩ := hloop _ x [] hx
  rcases cleanSticky_agree pre h with ⟨-, hnone⟩ | ⟨s', m', msgs', hs, hm, h'⟩
  · rw [hcells] at hnone
    cases hnone
  · rw [hcells] at hm
    cases hm
    exact ⟨s', msgs, hs, h'⟩

end Loops

end PubSub.Topics
