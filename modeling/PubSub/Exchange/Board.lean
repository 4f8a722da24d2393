import PubSub.Bus.Subscriptions
import PubSub.Bus.Sticky

/-! The topics without their memory: a board that lists them in the order in which
they came up, each name once, and none that has neither subscribers nor a
message to retain. A change of one topic puts a new one at the end and takes one
off that is no longer needed. The topic table of the bus is such a board. -/

namespace PubSub

open Lib

/-- A topic after a change, which leaves its name; it is gone if nothing keeps it. -/
def TopicMap.put (f : TopicMap → TopicMap) (t : TopicMap) : Option TopicMap :=
  TopicMap.unlessDead { f t with topic := t.topic }

theorem TopicMap.mem_put {f : TopicMap → TopicMap} {t t' : TopicMap} (h : t' ∈ t.put f) :
    t'.topic = t.topic ∧ ¬ t'.Dead := by
  obtain ⟨rfl, hd⟩ := mem_unlessDead.mp h
  exact ⟨rfl, hd⟩

/-- A change that changes nothing. -/
theorem TopicMap.put_self {f : TopicMap → TopicMap} {t : TopicMap} (hd : ¬ t.Dead)
    (h : { f t with topic := t.topic } = t) : t.put f = some t := by
  rw [put, h, unlessDead, if_neg hd]

/-- The topics after a change of the one called `name`. -/
def editTopics (name : Str) (f : TopicMap → TopicMap) : List TopicMap → List TopicMap
  | [] => (TopicMap.put f ⟨name, [], none⟩).toList
  | t :: ts => if t.topic = name then (t.put f).toList ++ ts else t :: editTopics name f ts

section Edit
variable {name : Str} {f : TopicMap → TopicMap} {ts l r : List TopicMap} {t : TopicMap}

theorem mem_editTopics (h : t ∈ editTopics name f ts) :
    t ∈ ts ∨ (t.topic = name ∧ ¬ t.Dead) := by
  induction ts with
  | nil =>
    obtain ⟨hname, hd⟩ := TopicMap.mem_put (Option.mem_toList.mp h)
    exact .inr ⟨hname, hd⟩
  | cons u ts ih =>
    rw [editTopics] at h
    split at h
    case isTrue hu =>
      rcases List.mem_append.mp h with h | h
      · obtain ⟨hname, hd⟩ := TopicMap.mem_put (Option.mem_toList.mp h)
        exact .inr ⟨hname.trans hu, hd⟩
      · exact .inl (List.mem_cons_of_mem _ h)
    case isFalse =>
      rcases List.mem_cons.mp h with rfl | h
      · exact .inl List.mem_cons_self
      · exact (ih h).imp_left (List.mem_cons_of_mem _)

theorem nodup_editTopics (h : (ts.map TopicMap.topic).Nodup) :
    ((editTopics name f ts).map TopicMap.topic).Nodup := by
  induction ts with
  | nil =>
    rw [editTopics]
    cases TopicMap.put f ⟨name, [], none⟩ with
    | none => exact List.nodup_nil
    | some t => exact List.nodup_singleton _
  | cons u ts ih =>
    obtain ⟨hu, hts⟩ := List.nodup_cons.mp h
    rw [editTopics]
    split
    case isTrue =>
      cases hp : u.put f with
      | none => exact hts
      | some t =>
        rw [Option.toList_some, List.singleton_append, List.map_cons, (TopicMap.mem_put hp).1]
        exact h
    case isFalse hne =>
      refine List.nodup_cons.mpr ⟨fun hmem => ?_, ih hts⟩
      obtain ⟨t, ht, htu⟩ := List.mem_map.mp hmem
      rcases mem_editTopics ht with ht | ⟨hname, -⟩
      · exact hu (htu ▸ List.mem_map_of_mem ht)
      · exact hne (htu.symm.trans hname)

theorem editTopics_append (hl : ∀ u ∈ l, u.topic ≠ name) :
    editTopics name f (l ++ r) = l ++ editTopics name f r := by
  induction l with
  | nil => rfl
  | cons u l ih =>
    rw [List.cons_append, editTopics, if_neg (hl u List.mem_cons_self),
      ih fun v hv => hl v (List.mem_cons_of_mem _ hv), List.cons_append]

/-- The topic's place on the board does not change. -/
theorem editTopics_split (hl : ∀ u ∈ l, u.topic ≠ t.topic) :
    editTopics t.topic f (l ++ t :: r) = l ++ (t.put f).toList ++ r := by
  rw [editTopics_append hl, editTopics, if_pos rfl, List.append_assoc]

theorem editTopics_new (hl : ∀ u ∈ l, u.topic ≠ name) :
    editTopics name f l = l ++ (TopicMap.put f ⟨name, [], none⟩).toList := by
  have h := editTopics_append (r := []) (f := f) hl
  rwa [List.append_nil] at h

theorem nodup_sweep (h : (ts.map TopicMap.topic).Nodup) :
    ((ts.filterMap (TopicMap.put f)).map TopicMap.topic).Nodup := by
  refine h.sublist ?_
  induction ts with
  | nil => exact List.Sublist.refl _
  | cons u ts ih =>
    have hrest := ih (List.nodup_cons.mp h).2
    cases hp : u.put f with
    | none =>
      rw [List.filterMap_cons_none hp]
      exact hrest.cons _
    | some t =>
      rw [List.filterMap_cons_some hp, List.map_cons, List.map_cons, (TopicMap.mem_put hp).1]
      exact hrest.cons_cons _

end Edit

/-- The topics in the order in which they came up. -/
structure Board where
  topics : List TopicMap
  unique : (topics.map TopicMap.topic).Nodup
  alive : ∀ t ∈ topics, ¬ t.Dead

namespace Board

def empty : Board := ⟨[], List.nodup_nil, fun _ h => nomatch h⟩

/-- The topic of that name. One that is not on the board has no subscribers and
retains nothing. -/
def topic (b : Board) (name : Str) : TopicMap :=
  (b.topics.find? fun t => t.topic = name).getD ⟨name, [], none⟩

/-- A change of one topic. -/
def edit (b : Board) (name : Str) (f : TopicMap → TopicMap) : Board where
  topics := editTopics name f b.topics
  unique := nodup_editTopics b.unique
  alive t ht := (mem_editTopics ht).elim (b.alive t) And.right

/-- A change of every topic. -/
def sweep (b : Board) (f : TopicMap → TopicMap) : Board where
  topics := b.topics.filterMap (TopicMap.put f)
  unique := nodup_sweep b.unique
  alive t ht := by
    obtain ⟨u, -, hp⟩ := List.mem_filterMap.mp ht
    exact (TopicMap.mem_put hp).2

end Board

/-! ### The changes -/

namespace TopicMap

/-- The subscriber is one of the topic's. -/
def has (su : SubId) (t : TopicMap) : Bool := t.subscribers.any fun sl => sl.su = su

def join (sl : SubscriberList) (t : TopicMap) : TopicMap :=
  { t with subscribers := t.subscribers ++ [sl] }

def leave (su : SubId) (t : TopicMap) : TopicMap := { t with subscribers := others su t.subscribers }

def retain (v : Option MsgId) (t : TopicMap) : TopicMap := { t with sticky := v }

/-- Nothing is retained at `pre` and below. -/
def forget (pre : Str) (t : TopicMap) : TopicMap :=
  if IsAncestor '.' pre t.topic then retain none t else t

end TopicMap

/-! ### The topic table -/

section Values
variable {topicMap : Cells TopicMap} {name : Str} {tm : TopicId} {t : TopicMap}
  {f : TopicMap → TopicMap}

/-- The lookup by name finds on the board what the hash table finds. -/
theorem find?_values (hn : Names topicMap) (name : Str) :
    topicMap.values.find? (fun t => t.topic = name) = topicAt topicMap name := by
  cases hat : topicAt topicMap name with
  | none =>
    have hf := topicAt_eq_none.mp hat
    rw [List.find?_eq_none]
    intro t ht
    obtain ⟨tm, htm⟩ := Cells.mem_values.mp ht
    rw [decide_eq_true_eq]
    exact fetchTopic_none hf htm
  | some t =>
    obtain ⟨tm, ht, rfl⟩ := (topicAt_eq_some hn).mp hat
    obtain ⟨l, r, hv, -, hl, -⟩ := Cells.values_set ht
    rw [hv, List.find?_append, List.find?_eq_none.mpr, Option.none_or, List.find?_cons_of_pos (by simp)]
    intro u hu
    obtain ⟨j, hj, hju⟩ := hl u hu
    rw [decide_eq_true_eq]
    exact fun heq => hj (hn.unique j tm u t hju ht heq)

/-- A change of a topic in the table, where it has an address. -/
theorem values_edit (hn : Names topicMap) (ht : topicMap.get tm = some t) (f : TopicMap → TopicMap) :
    (topicMap.set tm (t.put f)).values = editTopics t.topic f topicMap.values := by
  obtain ⟨l, r, hv, hset, hl, -⟩ := Cells.values_set ht
  rw [hset, hv, editTopics_split]
  intro u hu
  obtain ⟨j, hj, hju⟩ := hl u hu
  exact fun heq => hj (hn.unique j tm u t hju ht heq)

/-- A change of a topic that is not in the table. -/
theorem values_new (hf : fetchTopic topicMap name = none) (f : TopicMap → TopicMap) :
    editTopics name f topicMap.values =
      topicMap.values ++ (TopicMap.put f ⟨name, [], none⟩).toList := by
  refine editTopics_new fun u hu => ?_
  obtain ⟨j, hju⟩ := Cells.mem_values.mp hu
  exact fetchTopic_none hf hju

end Values

/-! ### The edits of the table -/

section Calls
variable {Q : Type → Type} [PsQueue Q] [LawfulPsQueue Q] {s s' : Bus Q} {su : SubId}
  {topicMap : Cells TopicMap} {name text : Str}

theorem values_setSticky (hn : Names topicMap) (name : Str) (v : Option MsgId) :
    (setSticky topicMap name v).values = editTopics name (.retain v) topicMap.values := by
  cases hf : fetchTopic topicMap name with
  | some tm =>
    obtain ⟨t, ht, rfl⟩ := fetchTopic_some hf
    rw [setSticky_of_fetch hf ht]
    exact values_edit hn ht (.retain v)
  | none =>
    rw [values_new hf]
    cases v with
    | none =>
      rw [setSticky_of_absent hf, TopicMap.put, TopicMap.unlessDead, if_pos ⟨rfl, rfl⟩]
      exact (List.append_nil _).symm
    | some msg =>
      have halloc : setSticky topicMap name (some msg) = topicMap.alloc ⟨name, [], some msg⟩ := by
        rw [setSticky_of_new hf]
        refine Cells.ext_get (c := topicMap.alloc ⟨name, [], some msg⟩) rfl fun i => ?_
        rw [Cells.get_set (Cells.get_alloc_self _ _), Cells.get_alloc, Cells.get_alloc]
        split <;> rfl
      rw [halloc, Cells.values_alloc, TopicMap.put, TopicMap.unlessDead, if_neg]
      · rfl
      · simp [TopicMap.Dead, TopicMap.retain]

/-- A subscription that is made leaves one more entry at its topic. -/
theorem psSubscribeFlags_table {pflags : Option PsSubFlags}
    (h : psSubscribeFlags s su text pflags = some (0, s')) : ∃ tm T t,
    fetchTopicCreateIfNotExist s.topicMap (cutFlags text) = (tm, T) ∧ T.get tm = some t ∧
    s'.topicMap = T.modify tm fun _ => t.join ⟨su, (subFlags text pflags).hidden,
      (subFlags text pflags).onEmpty, (subFlags text pflags).priority.toInt8⟩ := by
  simp only [psSubscribeFlags, Option.bind_eq_bind] at h
  generalize hT : fetchTopicCreateIfNotExist s.topicMap (cutFlags text) = T at h
  obtain ⟨tm, T⟩ := T
  obtain ⟨t, ht, h⟩ := Option.bind_eq_some_iff.mp h
  refine ⟨tm, T, t, rfl, ht, ?_⟩
  split at h
  · cases h
  · obtain ⟨S, -, h⟩ := Option.bind_eq_some_iff.mp h
    split at h
    · cases h
      rfl
    · split at h
      · obtain ⟨s₁, hpush, h⟩ := Option.bind_eq_some_iff.mp h
        cases h
        obtain ⟨ps, hps, -⟩ := childLoop_pushes hpush
        rw [hps.sameShape.topicMap]
        rfl
      · split at h
        · cases h
          rfl
        · obtain ⟨⟨r, s₁⟩, hpush, h⟩ := Option.bind_eq_some_iff.mp h
          cases h
          obtain ⟨ret, -, hstep⟩ := pushSubscriberQueue_iff.mp hpush
          rw [hstep.sameShape.topicMap]
          rfl

theorem values_join {T : Cells TopicMap} {tm : TopicId} {t : TopicMap} (hn : Names topicMap)
    (hT : fetchTopicCreateIfNotExist topicMap name = (tm, T)) (ht : T.get tm = some t)
    (sl : SubscriberList) :
    (T.modify tm fun _ => t.join sl).values = editTopics name (.join sl) topicMap.values := by
  have hput : ∀ t : TopicMap, t.put (.join sl) = some (t.join sl) := by
    intro t
    rw [TopicMap.put, TopicMap.unlessDead, if_neg]
    · rfl
    · simp [TopicMap.Dead, TopicMap.join]
  rw [fetchTopicCreateIfNotExist] at hT
  split at hT
  case h_1 tm' hf =>
    cases hT
    obtain ⟨t', ht', rfl⟩ := fetchTopic_some hf
    cases ht.symm.trans ht'
    rw [Cells.modify_eq_set ht, ← hput]
    exact values_edit hn ht (.join sl)
  case h_2 hf =>
    obtain rfl : topicMap.next = tm := congrArg Prod.fst hT
    obtain rfl : topicMap.alloc ⟨name, [], none⟩ = T := congrArg Prod.snd hT
    cases ht.symm.trans (Cells.get_alloc_self topicMap ⟨name, [], none⟩)
    rw [values_new hf, hput, Option.toList_some, ← Cells.values_alloc]
    congr 1
    refine Cells.ext_get (c := topicMap.alloc (TopicMap.join sl ⟨name, [], none⟩)) rfl fun i => ?_
    rw [Cells.get_modify, Cells.get_alloc, Cells.get_alloc]
    split <;> rfl

theorem put_leave {t : TopicMap} (hd : (t.subscribers.map SubscriberList.su).Nodup) :
    TopicMap.unlessDead { t with subscribers := without su t.subscribers } = t.put (.leave su) := by
  rw [without_eq_others hd]
  rfl

theorem nodup_of_get {tm : TopicId} {t : TopicMap} (hok : s.Ok) (ht : s.topicMap.get tm = some t) :
    (t.subscribers.map SubscriberList.su).Nodup := by
  have hd := hok.links.entriesNodup tm
  rwa [entriesOf, ht] at hd

theorem psUnsubscribe_table (hok : s.Ok) (h : psUnsubscribe s su text = some (0, s')) :
    s'.topicMap.values = editTopics (cutFlags text) (.leave su) s.topicMap.values := by
  simp only [psUnsubscribe, Option.bind_eq_bind] at h
  split at h
  case h_1 => cases h
  case h_2 tm hf =>
    obtain ⟨t, ht, hname⟩ := fetchTopic_some hf
    rw [ht, Option.bind_some] at h
    split at h
    case isFalse => cases h
    case isTrue =>
      rw [removeSubscriber_eq ht, Option.bind_some] at h
      obtain ⟨S, -, h⟩ := Option.bind_eq_some_iff.mp h
      cases h
      rw [← hname, ← values_edit hok.names ht, ← put_leave (nodup_of_get hok ht)]
      rfl

/-- What the rounds of the two loops over topics keep. -/
structure Tidy (topicMap : Cells TopicMap) : Prop where
  names : Names topicMap
  alive : NoDeadTopic topicMap
  nodup : ∀ tm t, topicMap.get tm = some t → (t.subscribers.map SubscriberList.su).Nodup

theorem Tidy.set {tm : TopicId} {t : TopicMap} {f : TopicMap → TopicMap} (h : Tidy topicMap)
    (ht : topicMap.get tm = some t) (hf : (f t).subscribers.Sublist t.subscribers) :
    Tidy (topicMap.set tm (t.put f)) := by
  refine ⟨h.names.set ht fun t' h => (TopicMap.mem_put h).1,
    h.alive.set ht fun t' h => (TopicMap.mem_put h).2, fun j u hj => ?_⟩
  rw [Cells.get_set ht] at hj
  split at hj
  case isTrue =>
    obtain ⟨rfl, -⟩ := mem_unlessDead.mp hj
    exact (h.nodup tm t ht).sublist (hf.map _)
  case isFalse => exact h.nodup j u hj

theorem Tidy.of_ok (hok : s.Ok) : Tidy s.topicMap :=
  ⟨hok.names, hok.alive, fun _ _ => nodup_of_get hok⟩

theorem unsubscribeFrom_round {tm : TopicId} (htidy : Tidy s.topicMap)
    (h : unsubscribeFrom su s tm = some s') : Tidy s'.topicMap ∧
      ∃ t, s.topicMap.get tm = some t ∧ s'.topicMap = s.topicMap.set tm (t.put (.leave su)) := by
  obtain ⟨t, ht, -⟩ := Option.bind_eq_some_iff.mp h
  rw [unsubscribeFrom_eq htidy.alive ht, put_leave (htidy.nodup tm t ht)] at h
  cases h
  exact ⟨htidy.set ht List.filter_sublist, t, ht, rfl⟩

theorem cleanTopic_round {pre : Str} {tm : TopicId} (htidy : Tidy s.topicMap)
    (h : cleanTopic pre s tm = some s') : Tidy s'.topicMap ∧
      ∃ t, s.topicMap.get tm = some t ∧ s'.topicMap = s.topicMap.set tm (t.put (.forget pre)) := by
  obtain ⟨t, ht, -⟩ := Option.bind_eq_some_iff.mp h
  have hset : s'.topicMap = s.topicMap.set tm (t.put (.forget pre)) := by
    have hstep := (cleanTopic_step htidy.names htidy.alive ht).mp h
    by_cases hin : inSubtree pre t.topic
    · rw [if_pos hin] at hstep
      obtain ⟨ms₁, ms₂, -, -, rfl⟩ := hstep
      rw [inSubtree_iff] at hin
      rw [setSticky_of_fetch (fetchTopic_topic htidy.names ht) ht, TopicMap.put, TopicMap.forget,
        if_pos hin]
      rfl
    · rw [if_neg hin] at hstep
      rw [inSubtree_iff] at hin
      rw [hstep, TopicMap.put_self (htidy.alive tm t ht), Cells.set_self ht]
      rw [TopicMap.forget, if_neg hin]
  have hsub : (TopicMap.forget pre t).subscribers.Sublist t.subscribers := by
    rw [TopicMap.forget]
    split
    · exact List.Sublist.refl _
    · exact List.Sublist.refl _
  exact ⟨hset ▸ htidy.set ht hsub, t, ht, hset⟩

/-- Each topic loses the subscriber's entry, whether the subscriber lists it or not. -/
theorem psUnsubscribeAll_table {n : ℕ} (hok : s.Ok) (h : psUnsubscribeAll s su = some (n, s')) :
    s'.topicMap.values = s.topicMap.values.filterMap (TopicMap.put (.leave su)) := by
  simp only [psUnsubscribeAll, Option.bind_eq_bind, Option.bind_eq_some_iff] at h
  obtain ⟨S, hS, s₁, hloop, heq⟩ := h
  cases heq
  have hd := hok.links.subsNodup su S.subs (subsOf_of_get hS)
  obtain ⟨-, hnext, hget⟩ := Cells.foldlM_set (fun s : Bus Q => s.topicMap)
    (TopicMap.put (.leave su)) (fun s => Tidy s.topicMap) (fun _ _ _ => unsubscribeFrom_round)
    (.of_ok hok) hd hloop
  refine Cells.values_bind hnext fun i => (hget i).trans ?_
  split
  case isTrue => rfl
  case isFalse hi =>
    cases ht : s.topicMap.get i with
    | none => rfl
    | some t =>
      have hnot : su ∉ t.subscribers.map SubscriberList.su := by
        have hiff := hok.links.mem_iff su S.subs (subsOf_of_get hS) i
        rw [entriesOf, ht] at hiff
        exact fun hmem => hi (hiff.mpr hmem)
      rw [Option.bind_some, TopicMap.put_self (hok.alive i t ht)]
      rw [TopicMap.leave, others_eq_self hnot]

theorem psCleanSticky_table {pre : Str} (hok : s.Ok) (h : psCleanSticky s pre = some s') :
    s'.topicMap.values = s.topicMap.values.filterMap (TopicMap.put (.forget pre)) := by
  obtain ⟨-, hnext, hget⟩ := Cells.foldlM_set (fun s : Bus Q => s.topicMap)
    (TopicMap.put (.forget pre)) (fun s => Tidy s.topicMap) (fun _ _ _ => cleanTopic_round)
    (.of_ok hok) (Cells.ids_nodup _) h
  refine Cells.values_bind hnext fun i => (hget i).trans ?_
  split
  case isTrue => rfl
  case isFalse hi =>
    rw [Cells.mem_ids, Bool.not_eq_true, Option.isSome_eq_false_iff, Option.isNone_iff_eq_none] at hi
    rw [hi, Option.bind_none]

end Calls

end PubSub
