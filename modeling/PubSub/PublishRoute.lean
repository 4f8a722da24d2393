import PubSub.Bus.Retitled
import PubSub.Priorities

/-! Where a publish goes: which topics it visits, and in which order it offers the
message to their subscriptions. -/

namespace PubSub

open Lib Bus

variable {Q : Type → Type} [PsQueue Q] [LawfulPsQueue Q]

section Visited
variable {m : PsMsg} {topic p : Str}

theorem visited_sorted : (visited m topic).Pairwise fun p q => q.length < p.length := by
  unfold visited
  split
  · exact List.pairwise_singleton _ _
  · exact ancestors_sorted '.' topic

end Visited

/-- The subscribers of a route live. -/
theorem Bus.Ok.offerable {s : Bus Q} (hok : s.Ok) {names : List Str}
    (hp : ∀ e ∈ subscriptionsAt s.topicMap names, e.2.priority.toUInt8.toNat < 10) :
    Offerable s (subscriptionsAt s.topicMap names) := by
  intro e he
  refine ⟨?_, hp e he⟩
  obtain ⟨name, -, hentry⟩ := List.mem_flatMap.mp he
  obtain ⟨sl, hsl, rfl⟩ := List.mem_map.mp hentry
  obtain ⟨tm, htm⟩ := exists_entriesOf hsl
  exact hok.links.live tm sl htm

namespace Client
variable {c c₂ : Client Q} {msg : MsgId} {m : PsMsg} {t : Str}

/-- What a publish that returns does. -/
theorem Accounted.published {n : ℕ} {s' : Bus Q} (ha : c.Accounted)
    (hm : c.bus.messages.cells.get msg = some m) (ht : m.topic = some t)
    (h : psPublish c.bus (some msg) = some (n, s')) :
    ∃ as s₀ s₁, Published c.bus msg n s' m (cutFlags t) as s₀ s₁ := by
  obtain ⟨m', topic, as, s₀, s₁, hp⟩ := psPublish_published ha.ok.names ha.ok.alive h
  obtain rfl : m = m' := Option.some.inj (hm.symm.trans hp.get)
  obtain ⟨t', ht', rfl⟩ := hp.topic_eq
  obtain rfl : t = t' := Option.some.inj (ht.symm.trans ht')
  exact ⟨as, s₀, s₁, hp⟩

/-- A client that holds a reference can publish, if the counter of the message has
room for the references that the publish may take. -/
theorem Accounted.publishes (ha : c.Accounted) (hw : c.bus.messages.refWrap = false)
    (hheld : 0 < c.held msg) (hm : c.bus.messages.cells.get msg = some m) (ht : m.topic = some t)
    (hroom : m.ref.toNat + (route c.bus.topicMap m (cutFlags t)).length + 1 < 2 ^ 32)
    (hprio : ∀ e ∈ route c.bus.topicMap m (cutFlags t), e.2.priority.toUInt8.toNat < 10) :
    ∃ n s' as s₀ s₁, psPublish c.bus (some msg) = some (n, s') ∧
      Published c.bus msg n s' m (cutFlags t) as s₀ s₁ := by
  have hready : c.bus.Ready c.held msg ((route c.bus.topicMap m (cutFlags t)).length + 1) := by
    refine ⟨ha.refOk, hw, hheld, fun m' hm' => ?_⟩
    rw [hm] at hm'
    cases hm'
    omega
  obtain ⟨n, s', h⟩ := psPublish_exists ha.ok.names ha.ok.alive hm ht hready (ha.ok.offerable hprio)
  obtain ⟨as, s₀, s₁, hp⟩ := ha.published hm ht h
  exact ⟨n, s', as, s₀, s₁, h, hp⟩

end Client

end PubSub
