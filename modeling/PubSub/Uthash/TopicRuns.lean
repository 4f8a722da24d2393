import PubSub.Uthash.Topics
import PubSub.Lib.Runs

/-! Whatever the program does with `topic_map`, the hash table does what the map does. -/

namespace PubSub.Topics

open Lib Uthash

/-- An access to `topic_map`. -/
inductive TableOp where
  | fetch (topic : Str)
  | fetchCreate (topic : Str)
  | set (tm : TopicId) (subscribers : List SubscriberList) (sticky : Option MsgId)
  | freeIfEmpty (tm : TopicId)
  | childStickies (pre : Str)
  | cleanSticky (pre : Str)

/-- Its result. -/
inductive TableRet where
  | unit
  | topic (tm : Option TopicId)
  | freed (r : Bool)
  | msgs (l : List MsgId)
  deriving DecidableEq

/-- An access to the hash table. -/
def hashStep (hash : Str → UInt32) (s : Table) : TableOp → Option (Table × TableRet)
  | .fetch topic => (fetchTopic hash s topic).map fun tm => (s, .topic tm)
  | .fetchCreate topic =>
    (fetchTopicCreateIfNotExist hash s topic).map fun x => (x.2, .topic (some x.1))
  | .set tm subscribers sticky => (setTopic s tm subscribers sticky).map fun s => (s, .unit)
  | .freeIfEmpty tm => (freeTopicIfEmpty s tm).map fun x => (x.2, .freed x.1)
  | .childStickies pre => (childStickies s pre).map fun x => (x.1, .msgs x.2)
  | .cleanSticky pre => (cleanSticky s pre).map fun x => (x.1, .msgs x.2)

/-- An access to the map. -/
def mapStep (m : Cells TopicMap) : TableOp → Option (Cells TopicMap × TableRet)
  | .fetch topic => some (m, .topic (PubSub.fetchTopic m topic))
  | .fetchCreate topic =>
    let x := PubSub.fetchTopicCreateIfNotExist m topic
    some (x.2, .topic (some x.1))
  | .set tm subscribers sticky => (m.get tm).map fun t =>
    (m.modify tm fun _ => { t with subscribers := subscribers, sticky := sticky }, .unit)
  | .freeIfEmpty tm => (PubSub.freeTopicIfEmpty m tm).map fun x => (x.2, .freed x.1)
  | .childStickies pre => some (m, .msgs (PubSub.childStickies m pre m.ids))
  | .cleanSticky pre => (m.ids.foldlM (cleanCell pre) (m, [])).map fun x => (x.1, .msgs x.2)

/-- The length of the name fits into an `unsigned`. -/
def TableOp.Short : TableOp → Prop
  | .fetch topic => topic.length < 2 ^ 32
  | .fetchCreate topic => topic.length < 2 ^ 32
  | _ => True

variable {hash : Str → UInt32} {s s' : Table} {m : Cells TopicMap} {op : TableOp}

theorem Agree.map {α γ : Type} {x : Option (Table × α)} {y : Option (Cells TopicMap × α)}
    (f : α → γ) (h : Agree hash x y) :
    Agree hash (x.map fun x => (x.1, f x.2)) (y.map fun y => (y.1, f y.2)) := by
  obtain ⟨rfl, rfl⟩ | ⟨s, m, r, rfl, rfl, h⟩ := h
  · exact .inl ⟨rfl, rfl⟩
  · exact .inr ⟨s, m, f r, rfl, rfl, h⟩

/-- One access. -/
theorem step_agree (h : Represents hash s m) (hroom : Room s) (hop : op.Short) :
    Agree hash (hashStep hash s op) (mapStep m op) := by
  cases op with
  | fetch topic => exact .inr ⟨s, m, _, by rw [hashStep, h.fetchTopic hop]; rfl, rfl, h⟩
  | fetchCreate topic =>
    have hfetch := h.fetchTopic hop
    cases hf : PubSub.fetchTopic m topic with
    | some tm =>
      rw [hf] at hfetch
      refine .inr ⟨s, m, .topic (some tm), ?_, ?_, h⟩
      · simp [hashStep, fetchTopicCreateIfNotExist, hfetch]
      · simp [mapStep, PubSub.fetchTopicCreateIfNotExist, hf]
    | none =>
      rw [hf] at hfetch
      obtain ⟨s', hcreate, h'⟩ := h.createTopic hroom hop hf
      refine .inr ⟨s', _, .topic (some m.next), ?_, ?_, h'⟩
      · simp [hashStep, fetchTopicCreateIfNotExist, hfetch, hcreate]
      · simp [mapStep, PubSub.fetchTopicCreateIfNotExist, hf, PubSub.createTopic]
  | set tm subscribers sticky =>
    cases ht : m.get tm with
    | none =>
      refine .inl ⟨?_, by rw [mapStep, ht]; rfl⟩
      simp [hashStep, setTopic, Cells.write, h.get_none ht]
    | some t =>
      obtain ⟨s', hset, h'⟩ := h.setTopic ht subscribers sticky
      exact .inr ⟨s', _, .unit, by rw [hashStep, hset]; rfl, by rw [mapStep, ht]; rfl, h'⟩
  | freeIfEmpty tm =>
    cases ht : m.get tm with
    | none =>
      refine .inl ⟨?_, ?_⟩
      · simp [hashStep, freeTopicIfEmpty, h.get_none ht]
      · simp [mapStep, PubSub.freeTopicIfEmpty, ht]
    | some t =>
      obtain ⟨r, s', m', hfree, hfree', h'⟩ := h.freeTopicIfEmpty ht
      exact .inr ⟨s', m', .freed r, by rw [hashStep, hfree]; rfl, by rw [mapStep, hfree']; rfl, h'⟩
  | childStickies pre =>
    exact .inr ⟨s, m, _, by rw [hashStep, childStickies_eq h]; rfl, rfl, h⟩
  | cleanSticky pre => exact (cleanSticky_agree pre h).map TableRet.msgs

/-- The runs of the hash table, with names that are not too long, as long as no table has
2^31 buckets. -/
abbrev HashReaches (hash : Str → UInt32) (s : Table) (h : List (TableOp × TableRet)) (s' : Table) :
    Prop :=
  Run (fun s e s' => Room s ∧ e.1.Short ∧ hashStep hash s e.1 = some (s', e.2)) s h s'

/-- In every run of the hash table, whatever the hash function: the map gives the same
results, and goes through undefined behaviour where the hash table does; a topic has its
memory in one if it has in the other; `HASH_FSCK` finds nothing; and without topics there is
no table. -/
theorem hashTable_refines_map (hash : Str → UInt32) {h : List (TableOp × TableRet)}
    (hr : HashReaches hash ⟨.empty, .empty, none⟩ h s) :
    ∃ m, Run (fun m e m' => mapStep m e.1 = some (m', e.2)) .empty h m ∧
      (∀ op, op.Short → Room s →
        (hashStep hash s op).map Prod.snd = (mapStep m op).map Prod.snd) ∧
      (∀ tm, (s.elems.get tm).map Elem.val = m.get tm) ∧ hashFsck s = some true ∧
      (m.ids = [] → ∀ t, s.tables.get t = none) := by
  obtain ⟨m, hm, h⟩ : ∃ m, Run (fun m e m' => mapStep m e.1 = some (m', e.2)) .empty h m ∧
      Represents hash s m := by
    refine hr.history (P := fun h s => ∃ m, Run (fun m (e : TableOp × TableRet) m' =>
      mapStep m e.1 = some (m', e.2)) .empty h m ∧ Represents hash s m) ⟨.empty, .nil, .init⟩ ?_
    rintro h s e s' - ⟨m, hm, hs⟩ ⟨hroom, hshort, hstep⟩
    rcases step_agree hs hroom hshort with ⟨hnone, -⟩ | ⟨s₁, m₁, r, hs₁, hm₁, h₁⟩
    · rw [hstep] at hnone
      cases hnone
    · rw [hstep] at hs₁
      cases hs₁
      exact ⟨m₁, hm.snoc hm₁, h₁⟩
  refine ⟨m, hm, fun op hshort hroom => ?_, fun tm => ?_, h.rep.fsck, fun hnil => ?_⟩
  · rcases step_agree h hroom hshort with ⟨hs, hm⟩ | ⟨s₁, m₁, r, hs, hm, -⟩
    · rw [hs, hm]
      rfl
    · rw [hs, hm]
      rfl
  · have htopic := congrArg (Option.map Prod.fst) (h.topics tm)
    rw [Option.map_map, Option.map_map] at htopic
    exact htopic.trans (by simp [Function.comp_def])
  · obtain ⟨-, -, htables⟩ | ⟨t, T, chains, hfull⟩ := h.rep
    · exact htables
    · exact absurd hnil hfull.ne_nil

/-! ### A run computed -/

instance (op : TableOp) : Decidable op.Short :=
  match op with
  | .fetch topic => inferInstanceAs (Decidable (topic.length < 2 ^ 32))
  | .fetchCreate topic => inferInstanceAs (Decidable (topic.length < 2 ^ 32))
  | .set _ _ _ | .freeIfEmpty _ | .childStickies _ | .cleanSticky _ =>
    inferInstanceAs (Decidable True)

theorem room_iff : Room s ↔
    ∀ t ∈ s.tables.ids, (s.tables.get t).all fun T => T.log2NumBuckets.toNat < 31 := by
  constructor
  · intro hroom t ht
    obtain ⟨T, hT⟩ := Option.isSome_iff_exists.mp (Cells.mem_ids.mp ht)
    rw [hT, Option.all_some, decide_eq_true_eq]
    exact hroom t T hT
  · intro hall t T hT
    have hlog := hall t (Cells.mem_ids.mpr (by rw [hT]; rfl))
    rwa [hT, Option.all_some, decide_eq_true_eq] at hlog

instance (s : Table) : Decidable (Room s) := decidable_of_iff _ room_iff.symm

/-- An access that a run may make. -/
def runStep (hash : Str → UInt32) (s : Table) (op : TableOp) : Option (TableRet × Table) :=
  if Room s ∧ op.Short then (hashStep hash s op).map Prod.swap else none

theorem reaches_of_exec {ops : List TableOp} {rs : List TableRet}
    (h : exec (runStep hash) ops s = some (rs, s')) : HashReaches hash s (ops.zip rs) s' := by
  refine (run_of_exec_if (P := fun s op => Room s ∧ op.Short) h).mono fun s e s' _ hs => ?_
  obtain ⟨hs, hroom, hshort⟩ := hs
  obtain ⟨⟨s₁, r⟩, hstep, heq⟩ := Option.map_eq_some_iff.mp hs
  obtain ⟨rfl, rfl⟩ := Prod.mk.inj heq
  exact ⟨hroom, hshort, hstep⟩

/-- Twelve topics `a`, `a.`, `a..` and so on in one bucket of 32, which is split when it is
full. Three of them retain a message and one has a subscription. The replay and the clean-up
visit them in the order of their creation, and the clean-up frees those left empty. -/
theorem hashTable_refines_map_split :
    ∃ (h : List (TableOp × TableRet)) (s : Table) (m : Cells TopicMap),
      HashReaches (fun key => .ofNat (7 + 32 * (key.length % 2))) ⟨.empty, .empty, none⟩ h s ∧
      h = ((List.range 12).map fun n =>
        (.fetchCreate ('a' :: List.replicate n '.'), .topic (some n))) ++
        [(.set 10 [] (some 5), .unit), (.set 3 [⟨0, false, false, 0⟩] (some 6), .unit),
          (.set 6 [] (some 7), .unit), (.childStickies "a".toList, .msgs [6, 7, 5]),
          (.freeIfEmpty 0, .freed true), (.fetch "a".toList, .topic none),
          (.fetchCreate "b".toList, .topic (some 12)), (.cleanSticky "a".toList, .msgs [6, 7, 5]),
          (.fetch "a...".toList, .topic (some 3)), (.fetch "a......".toList, .topic none)] ∧
      (s.tables.get 0).map (fun T => (T.log2NumBuckets, T.numItems)) = some (6, 10) ∧
      s.elems.ids = [1, 2, 3, 4, 5, 7, 8, 9, 11, 12] ∧
      Run (fun m e m' => mapStep m e.1 = some (m', e.2)) .empty h m ∧
      (∀ tm, (s.elems.get tm).map Elem.val = m.get tm) ∧ hashFsck s = some true := by
  have hcalls : (exec (runStep fun key => .ofNat (7 + 32 * (key.length % 2)))
      ((List.range 12).map (fun n => .fetchCreate ('a' :: List.replicate n '.')) ++
        [.set 10 [] (some 5), .set 3 [⟨0, false, false, 0⟩] (some 6), .set 6 [] (some 7),
          .childStickies "a".toList, .freeIfEmpty 0, .fetch "a".toList, .fetchCreate "b".toList,
          .cleanSticky "a".toList, .fetch "a...".toList, .fetch "a......".toList])
      ⟨.empty, .empty, none⟩).map (fun (rs, s) => (rs,
        (s.tables.get 0).map fun T => (T.log2NumBuckets, T.numItems), s.elems.ids)) =
      some ((List.range 12).map (fun n => .topic (some n)) ++ [.unit, .unit, .unit,
          .msgs [6, 7, 5], .freed true, .topic none, .topic (some 12), .msgs [6, 7, 5],
          .topic (some 3), .topic none],
        some (6, 10), [1, 2, 3, 4, 5, 7, 8, 9, 11, 12]) := by
    decide +kernel
  obtain ⟨⟨rs, s⟩, hexec, heq⟩ := Option.map_eq_some_iff.mp hcalls
  simp only [Prod.mk.injEq] at heq
  obtain ⟨rfl, htable, hids⟩ := heq
  have hr := reaches_of_exec hexec
  obtain ⟨m, hm, -, hsame, hfsck, -⟩ := hashTable_refines_map _ hr
  exact ⟨_, s, m, hr, rfl, htable, hids, hm, hsame, hfsck⟩

end PubSub.Topics
