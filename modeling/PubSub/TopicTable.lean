import PubSub.Bus.Api
import PubSub.Queue.Bucket

/-! The topic table in every reachable state. -/

namespace PubSub

open Lib Bus

variable {Q : Type → Type} [PsQueue Q] [LawfulPsQueue Q]

/-- A duplicate-free list holds each of its members once. -/
theorem count_of_nodup {l : List ℕ} (hd : l.Nodup) {P : Prop} [Decidable P] {a : ℕ}
    (h : a ∈ l ↔ P) : l.count a = if P then 1 else 0 := by
  split
  case isTrue hp => exact List.count_eq_one_of_mem hd (h.mpr hp)
  case isFalse hp => exact List.count_eq_zero_of_not_mem fun hm => hp (h.mp hm)

/-- In every reachable state: names are distinct and hold no space; no topic is
dead; a subscriber lists a topic once if the topic has an entry of its and not at
all otherwise; it has at most one entry in a topic; and every pointer of the two
lists is to a live object. -/
theorem topicMap_consistent {h : List Label} {s : Bus Q} (hr : Bus.init.Reaches h s) :
    (∀ i j a b, s.topicMap.get i = some a → s.topicMap.get j = some b → a.topic = b.topic →
      i = j) ∧
    (∀ i a, s.topicMap.get i = some a → ' ' ∉ a.topic) ∧
    (∀ i a, s.topicMap.get i = some a → a.subscribers ≠ [] ∨ a.sticky ≠ none) ∧
    (∀ su S, s.subscribers.get su = some S → ∀ tm, S.subs.count tm =
      if su ∈ (entriesOf s.topicMap tm).map SubscriberList.su then 1 else 0) ∧
    (∀ i a, s.topicMap.get i = some a → (a.subscribers.map SubscriberList.su).Nodup) ∧
    (∀ su S, s.subscribers.get su = some S → ∀ tm ∈ S.subs, (s.topicMap.get tm).isSome) ∧
    (∀ i a, s.topicMap.get i = some a → ∀ sl ∈ a.subscribers,
      (s.subscribers.get sl.su).isSome) := by
  have hok := hr.ok
  have hof : ∀ i a, s.topicMap.get i = some a → entriesOf s.topicMap i = a.subscribers := by
    intro i a hi
    rw [entriesOf, hi]
    rfl
  refine ⟨hok.names.unique, hok.names.noSpace, fun i a hi => ?_, fun su S hS tm => ?_,
    fun i a hi => ?_, fun su S hS tm htm => ?_, fun i a hi sl hsl => ?_⟩
  · have hdead := hok.alive i a hi
    rw [TopicMap.Dead, not_and_or] at hdead
    exact hdead
  · exact count_of_nodup (hok.links.subsNodup su S.subs (subsOf_of_get hS))
      (hok.links.mem_iff su S.subs (subsOf_of_get hS) tm)
  · rw [← hof i a hi]
    exact hok.links.entriesNodup i
  · have hne := hok.links.ne_nil_of_mem (subsOf_of_get hS) htm
    rw [entriesOf] at hne
    cases hget : s.topicMap.get tm with
    | none =>
      rw [hget] at hne
      exact absurd rfl hne
    | some a => rfl
  · have hlive := hok.links.live i sl (by rw [hof i a hi]; exact hsl)
    rwa [subsOf, Option.isSome_map] at hlive

/-- A run in which a topic outlives its sticky message and its first subscriber. -/
theorem topicMap_consistent_shared : ∃ s : Bus Bucket.Queue,
    exec step [.newMsg (some "a.b".toList) 0x801 .nil, .publish (some 0),
      .newSubscriber 4 (some ["a.b".toList]), .newSubscriber 4 (some ["a.b h".toList]),
      .cleanSticky "a".toList, .freeSubscriber 0] Bus.init =
      some ([.msg (some 0), .int 0, .subscriber 0, .subscriber 1, .unit, .unit], s) ∧
    (s.topicMap.get 0).map (fun a => a.subscribers.map SubscriberList.su) = some [1] ∧
    ∀ su S, s.subscribers.get su = some S → ∀ tm, S.subs.count tm =
      if su ∈ (entriesOf s.topicMap tm).map SubscriberList.su then 1 else 0 := by
  refine ⟨_, rfl, rfl, ?_⟩
  have hrun := run_of_exec (f := step (Q := Bucket.Queue)) (s := Bus.init)
    (l := [.newMsg (some "a.b".toList) 0x801 .nil, .publish (some 0),
      .newSubscriber 4 (some ["a.b".toList]), .newSubscriber 4 (some ["a.b h".toList]),
      .cleanSticky "a".toList, .freeSubscriber 0]) rfl
  exact (topicMap_consistent hrun).2.2.2.1

end PubSub
