import PubSub.Bus.Offers
import PubSub.Bus.Sticky

/-! `ps_publish` as one sticky step, one list of offers and one release. The loop
over the truncated topics is a walk of the list of ancestors. -/

namespace PubSub

open Lib

variable {Q : Type → Type} [PsQueue Q] [LawfulPsQueue Q]

/-- The topics that a message on `topic` visits. -/
def visited (m : PsMsg) (topic : Str) : List Str :=
  if m.nonrecursive then [topic] else ancestors '.' topic

/-- The subscriptions that a message on `topic` is offered to. -/
def route (topicMap : Cells TopicMap) (m : PsMsg) (topic : Str) : List (Str × SubscriberList) :=
  subscriptionsAt topicMap (visited m topic)

/-- The subscriptions of a list can take a push: their subscribers live, and their
priorities are indices of the bucket array. -/
def Offerable (s : Bus Q) (es : List (Str × SubscriberList)) : Prop :=
  ∀ e ∈ es, (subsOf s.subscribers e.2.su).isSome ∧ e.2.priority.toUInt8.toNat < 10

/-- What the rounds of `ps_publish` do, for the offers `es` and the count so far. -/
def Rounds (s : Bus Q) (msg : MsgId) (es : List (Str × SubscriberList)) (ret n : ℕ) (s' : Bus Q) :
    Prop :=
  ∃ as, offers msg es (queuesOf s.subscribers) = some (as, queuesOf s'.subscribers) ∧
    s.Pushes (as.map (Attempt.push msg)) s' ∧ n = ret + as.countP Attempt.counted

theorem Rounds.append {s₁ s₂ s₃ : Bus Q} {msg : MsgId} {es fs : List (Str × SubscriberList)}
    {a b c : ℕ} (h₁ : Rounds s₁ msg es a b s₂) (h₂ : Rounds s₂ msg fs b c s₃) :
    Rounds s₁ msg (es ++ fs) a c s₃ := by
  obtain ⟨as, ho, hp, hn⟩ := h₁
  obtain ⟨bs, ho', hp', hn'⟩ := h₂
  refine ⟨as ++ bs, offers_append ho ho', ?_, ?_⟩
  · rw [List.map_append]
    exact hp.append hp'
  · rw [List.countP_append]
    omega

theorem Rounds.sameShape {s s' : Bus Q} {msg : MsgId} {es : List (Str × SubscriberList)} {a b : ℕ}
    (h : Rounds s msg es a b s') : s.SameShape s' := by
  obtain ⟨as, -, hp, -⟩ := h
  exact hp.sameShape

theorem Rounds.ready {s s' : Bus Q} {msg : MsgId} {es : List (Str × SubscriberList)} {a b k : ℕ}
    {held : MsgId → ℕ} (h : Rounds s msg es a b s') (hr : s.Ready held msg (k + es.length)) :
    s'.Ready held msg k := by
  obtain ⟨as, ho, hp, -⟩ := h
  refine hp.ready (fun p hp => ?_) (hr.mono ?_)
  · obtain ⟨a, -, rfl⟩ := List.mem_map.mp hp
    rfl
  · have := length_offers_le ho
    rw [List.length_map]
    omega

section Loop
variable {s s' s₁ : Bus Q} {msg : MsgId} {topic : Str} {m : PsMsg} {ret r n fuel : ℕ}
  {held : MsgId → ℕ}

theorem deliverAt_rounds (h : deliverAt msg topic (fetchTopic s.topicMap topic) ret s = some (n, s')) :
    Rounds s msg (subscriptionsAt s.topicMap [topic]) ret n s' := by
  have hes : subscriptionsAt s.topicMap [topic] = (entriesAt s.topicMap topic).map (topic, ·) := by
    simp [subscriptionsAt]
  rw [hes]
  cases hf : fetchTopic s.topicMap topic with
  | none =>
    rw [hf] at h
    cases h
    rw [entriesAt, topicAt_eq_none.mpr hf]
    exact ⟨[], rfl, .nil, rfl⟩
  | some tm =>
    obtain ⟨t, ht, -⟩ := fetchTopic_some hf
    rw [hf, deliverAt, ht] at h
    rw [entriesAt, topicAt_of_fetch hf ht]
    exact deliver_offers h

theorem deliverAt_exists (msg : MsgId) (topic : Str) (ret : ℕ)
    (hr : s.Ready held msg (subscriptionsAt s.topicMap [topic]).length)
    (ho : Offerable s (subscriptionsAt s.topicMap [topic])) :
    ∃ n s', deliverAt msg topic (fetchTopic s.topicMap topic) ret s = some (n, s') := by
  cases hf : fetchTopic s.topicMap topic with
  | none => exact ⟨ret, s, rfl⟩
  | some tm =>
    obtain ⟨t, ht, -⟩ := fetchTopic_some hf
    have hes : subscriptionsAt s.topicMap [topic] = t.subscribers.map (topic, ·) := by
      simp [subscriptionsAt, entriesAt, topicAt_of_fetch hf ht]
    rw [hes] at hr ho
    rw [List.length_map] at hr
    simp only [deliverAt, ht, Option.bind_eq_bind, Option.bind_some]
    apply deliver_exists ret hr
    intro sl hsl
    exact ho (topic, sl) (List.mem_map_of_mem hsl)

theorem visited_cons (hm : m.nonrecursive = false) (ht : topic ≠ []) :
    visited m topic = topic :: visited m (truncate topic) := by
  simp only [visited, hm, Bool.false_eq_true, ↓reduceIte]
  rw [ancestors_cons '.' ht, truncate_eq]

theorem visited_nonrecursive (hm : m.nonrecursive = true) : visited m topic = [topic] := if_pos hm

theorem isAncestor_of_visited {name : Str} (h : name ∈ visited m topic) : IsAncestor '.' name topic := by
  unfold visited at h
  split at h
  · exact .inl (List.mem_singleton.mp h)
  · exact (mem_ancestors '.').mp h

theorem visited_nil : visited m [] = [[]] := by
  unfold visited
  split
  · rfl
  · exact ancestors_nil '.'

theorem subscriptionsAt_append (topicMap : Cells TopicMap) (as bs : List Str) :
    subscriptionsAt topicMap (as ++ bs) = subscriptionsAt topicMap as ++ subscriptionsAt topicMap bs :=
  List.flatMap_append

theorem route_cons {topicMap : Cells TopicMap} (hm : m.nonrecursive = false) (ht : topic ≠ []) :
    route topicMap m topic =
      subscriptionsAt topicMap [topic] ++ route topicMap m (truncate topic) := by
  rw [route, visited_cons hm ht, ← List.singleton_append, subscriptionsAt_append]
  rfl

/-- The message that a round finds is the one that the publish started with. -/
theorem nonrecursive_eq (hs : s.messages.SameContent s'.messages) {m' : PsMsg}
    (hm : s.messages.cells.get msg = some m) (hm' : s'.messages.cells.get msg = some m') :
    m'.nonrecursive = m.nonrecursive := by
  obtain ⟨m₀, hm₀, he⟩ := hs.content msg m' hm'
  rw [hm] at hm₀
  cases hm₀
  rw [he]
  rfl

/-- One round and what follows it, if the rounds that follow are as they should be. -/
theorem round_rounds (hm : s.messages.cells.get msg = some m)
    (hd : deliverAt msg topic (fetchTopic s.topicMap topic) ret s = some (r, s₁))
    (hrec : ∀ m₁, s₁.messages.cells.get msg = some m₁ → topic ≠ [] →
      publishLoop msg fuel false (truncate topic) r s₁ = some (n, s') →
      Rounds s₁ msg (route s₁.topicMap m₁ (truncate topic)) r n s')
    (h : ((s₁.messages.cells.get msg).bind fun m => if m.nonrecursive then some (r, s₁)
      else if topic = [] then some (r, s₁)
      else publishLoop msg fuel false (truncate topic) r s₁) = some (n, s')) :
    Rounds s msg (route s.topicMap m topic) ret n s' := by
  have hround := deliverAt_rounds hd
  obtain ⟨m₁, hm₁, htail⟩ := Option.bind_eq_some_iff.mp h
  have hnr := nonrecursive_eq hround.sameShape.content hm hm₁
  clear h
  split at htail
  case isTrue hstop =>
    cases htail
    rw [route, visited_nonrecursive (hnr.symm.trans hstop)]
    exact hround
  case isFalse hgo =>
    split at htail
    case isTrue htop =>
      subst htop
      cases htail
      rw [route, visited_nil]
      exact hround
    case isFalse htop =>
      have hmf : m.nonrecursive = false := by rw [← hnr, Bool.eq_false_iff.mpr hgo]
      have hrest := hrec m₁ hm₁ htop htail
      have hroute : route s₁.topicMap m₁ (truncate topic) = route s.topicMap m (truncate topic) := by
        rw [route, visited, hnr, hround.sameShape.topicMap]
        rfl
      rw [route_cons hmf htop]
      rw [hroute] at hrest
      exact hround.append hrest

/-- The loop after its first round walks the ancestors of `topic`. -/
theorem publishLoop_rounds (hm : s.messages.cells.get msg = some m)
    (h : publishLoop msg fuel false topic ret s = some (n, s')) :
    Rounds s msg (route s.topicMap m topic) ret n s' := by
  induction fuel generalizing topic ret s m with
  | zero => cases h
  | succ fuel ih =>
    simp only [publishLoop, Bool.false_eq_true, ↓reduceIte, Option.bind_eq_bind,
      Option.bind_some] at h
    obtain ⟨⟨r, s₁⟩, hd, h⟩ := Option.bind_eq_some_iff.mp h
    exact round_rounds hm hd (fun m₁ hm₁ _ hrec => ih hm₁ hrec) h

theorem Offerable.of_sameShape {es : List (Str × SubscriberList)} (hs : s.SameShape s')
    (h : Offerable s es) : Offerable s' es := by
  intro e he
  rw [hs.subsOf]
  exact h e he

theorem round_exists (fuel ret : ℕ) (hm : s.messages.cells.get msg = some m)
    (hr : s.Ready held msg (route s.topicMap m topic).length)
    (ho : Offerable s (route s.topicMap m topic))
    (hrec : ∀ (r : ℕ) (s₁ : Bus Q) (m₁ : PsMsg), topic ≠ [] → s₁.messages.cells.get msg = some m₁ →
      s₁.Ready held msg (route s₁.topicMap m₁ (truncate topic)).length →
      Offerable s₁ (route s₁.topicMap m₁ (truncate topic)) →
      ∃ n s', publishLoop msg fuel false (truncate topic) r s₁ = some (n, s')) :
    ∃ r s₁ n s', deliverAt msg topic (fetchTopic s.topicMap topic) ret s = some (r, s₁) ∧
      ((s₁.messages.cells.get msg).bind fun m => if m.nonrecursive then some (r, s₁)
        else if topic = [] then some (r, s₁)
        else publishLoop msg fuel false (truncate topic) r s₁) = some (n, s') := by
  have hsplit : ∃ rest, route s.topicMap m topic = subscriptionsAt s.topicMap [topic] ++ rest ∧
      (m.nonrecursive = false → topic ≠ [] → rest = route s.topicMap m (truncate topic)) := by
    by_cases hgo : m.nonrecursive = false ∧ topic ≠ []
    · exact ⟨_, route_cons hgo.1 hgo.2, fun _ _ => rfl⟩
    · refine ⟨[], ?_, fun h₁ h₂ => absurd ⟨h₁, h₂⟩ hgo⟩
      rw [List.append_nil, route]
      by_cases hnr : m.nonrecursive = false
      · obtain rfl : topic = [] := by
          by_contra hne
          exact hgo ⟨hnr, hne⟩
        rw [visited_nil]
      · rw [visited_nonrecursive (by simpa using hnr)]
  obtain ⟨rest, hroute, hrest⟩ := hsplit
  rw [hroute] at hr ho
  rw [List.length_append] at hr
  obtain ⟨r, s₁, hd⟩ := deliverAt_exists msg topic ret
    (hr.mono (Nat.le_add_right _ _)) fun e he => ho e (List.mem_append_left _ he)
  have hround := deliverAt_rounds hd
  have hshape := hround.sameShape
  have hr₁ : s₁.Ready held msg rest.length := hround.ready (by rwa [Nat.add_comm])
  obtain ⟨m₁, hm₁⟩ := hr₁.live
  have hnr := nonrecursive_eq hshape.content hm hm₁
  by_cases hstop : m₁.nonrecursive = true
  · exact ⟨r, s₁, r, s₁, hd, by rw [hm₁, Option.bind_some, if_pos hstop]⟩
  by_cases htop : topic = []
  · exact ⟨r, s₁, r, s₁, hd, by rw [hm₁, Option.bind_some, if_neg hstop, if_pos htop]⟩
  have hroute₁ : route s₁.topicMap m₁ (truncate topic) = rest := by
    rw [hrest (by rw [← hnr, Bool.eq_false_iff.mpr hstop]) htop, route, visited, hnr,
      hshape.topicMap]
    rfl
  obtain ⟨n, s', hloop⟩ := hrec r s₁ m₁ htop hm₁ (by rwa [hroute₁])
    (by rw [hroute₁]; exact Offerable.of_sameShape hshape fun e he =>
      ho e (List.mem_append_right _ he))
  exact ⟨r, s₁, n, s', hd, by rw [hm₁, Option.bind_some, if_neg hstop, if_neg htop, hloop]⟩

/-- The loop ends: each round shortens the topic. -/
theorem publishLoop_exists (ret : ℕ) (hm : s.messages.cells.get msg = some m)
    (hf : topic.length < fuel) (hr : s.Ready held msg (route s.topicMap m topic).length)
    (ho : Offerable s (route s.topicMap m topic)) :
    ∃ n s', publishLoop msg fuel false topic ret s = some (n, s') := by
  induction fuel generalizing topic ret s m with
  | zero => omega
  | succ fuel ih =>
    obtain ⟨r, s₁, n, s', hd, h⟩ := round_exists fuel ret hm hr ho
      fun r s₁ m₁ htop hm₁ hr₁ ho₁ => ih r hm₁ (by have := length_truncate_lt htop; omega) hr₁ ho₁
    refine ⟨n, s', ?_⟩
    simp only [publishLoop, Bool.false_eq_true, ↓reduceIte, Option.bind_eq_bind, Option.bind_some,
      hd]
    exact h

end Loop

/-! ### `ps_publish` -/

/-- A publish that returns: the message and its topic, the sticky step, the offers
and the release of the client's reference. -/
structure Published (s : Bus Q) (msg : MsgId) (n : ℕ) (s' : Bus Q) (m : PsMsg) (topic : Str)
    (as : List Attempt) (s₀ s₁ : Bus Q) : Prop where
  get : s.messages.cells.get msg = some m
  topic_eq : ∃ msgTopic, m.topic = some msgTopic ∧ topic = cutFlags msgTopic
  stickyStep : StickyStep s topic (m.retained msg) s₀
  offers : offers msg (route s.topicMap m topic) (queuesOf s.subscribers) =
    some (as, queuesOf s'.subscribers)
  pushes : s₀.Pushes (as.map (Attempt.push msg)) s₁
  count : n = as.countP Attempt.counted
  release : ∃ ms, psUnrefMsg s₁.messages (some msg) = some ms ∧ s' = { s₁ with messages := ms }

theorem route_of_edit {a b : Cells TopicMap} {name topic : Str} {v : Option MsgId} {m : PsMsg}
    (he : StickyEdit a b name v) : route b m topic = route a m topic := by
  rw [route, subscriptionsAt, he.entriesAt]
  rfl

theorem psPublish_published {s s' : Bus Q} {msg : MsgId} {n : ℕ} (hn : Names s.topicMap)
    (ha : NoDeadTopic s.topicMap) (h : psPublish s (some msg) = some (n, s')) :
    ∃ m topic as s₀ s₁, Published s msg n s' m topic as s₀ s₁ := by
  simp only [psPublish, Option.bind_eq_bind, Option.bind_eq_some_iff, Option.some.injEq] at h
  obtain ⟨m, hm, msgTopic, htopic, ⟨ret, s₁⟩, hloop, ms, hrel, heq⟩ := h
  cases heq
  have hs := not_mem_cutFlags msgTopic
  simp only [publishLoop, ↓reduceIte, Option.bind_eq_bind] at hloop
  obtain ⟨⟨tm, s₀⟩, hup, hround⟩ := Option.bind_eq_some_iff.mp hloop
  obtain ⟨⟨r, s₂⟩, hd, htail⟩ := Option.bind_eq_some_iff.mp hround
  obtain ⟨m', hm', hstep, htm⟩ := (updateSticky_step hn ha hs).mp hup
  subst htm
  rw [hm] at hm'
  cases hm'
  have he := hstep.edit hn ha hs
  obtain ⟨m₂, hm₂, -⟩ := Option.bind_eq_some_iff.mp htail
  obtain ⟨m₁, hm₁, -⟩ := (deliverAt_rounds hd).sameShape.content.content msg m₂ hm₂
  obtain ⟨as, ho, hp, hc⟩ := round_rounds hm₁ hd
    (fun m₁ hm₁ _ hrec => publishLoop_rounds hm₁ hrec) htail
  have hroute : route s₀.topicMap m₁ (cutFlags msgTopic) =
      route s.topicMap m (cutFlags msgTopic) := by
    rw [route_of_edit he, route, visited, nonrecursive_eq hstep.sameContent hm hm₁]
    rfl
  rw [hroute, hstep.subscribers] at ho
  exact ⟨m, cutFlags msgTopic, as, s₀, s₁, hm, ⟨msgTopic, htopic, rfl⟩, hstep, ho, hp,
    by simpa using hc, ms, hrel, rfl⟩

/-- `ps_publish` returns, for a client that holds a reference to the message, when
the counters have room for the sticky reference and one for each subscription. -/
theorem psPublish_exists {s : Bus Q} {msg : MsgId} {m : PsMsg} {msgTopic : Str} {held : MsgId → ℕ}
    (hn : Names s.topicMap) (ha : NoDeadTopic s.topicMap)
    (hm : s.messages.cells.get msg = some m) (htopic : m.topic = some msgTopic)
    (hr : s.Ready held msg ((route s.topicMap m (cutFlags msgTopic)).length + 1))
    (ho : Offerable s (route s.topicMap m (cutFlags msgTopic))) :
    ∃ n s', psPublish s (some msg) = some (n, s') := by
  have hs := not_mem_cutFlags msgTopic
  have hv : ∀ x ∈ m.retained msg, x = msg := fun x hx => by
    simp only [PsMsg.retained, Option.mem_def, Option.ite_none_right_eq_some,
      Option.some.injEq] at hx
    exact hx.2.symm
  obtain ⟨s₀, hstep⟩ := StickyStep.exists_of_refOk (v := m.retained msg) hn ha hs hr.refOk hr.noWrap
    fun x hx => by rw [hv x hx]; exact hr.owned
  have he := hstep.edit hn ha hs
  have hr₀ := hstep.ready hn ha hs hv hr
  obtain ⟨m₀, hm₀⟩ := hr₀.live
  have hroute : route s₀.topicMap m₀ (cutFlags msgTopic) =
      route s.topicMap m (cutFlags msgTopic) := by
    rw [route_of_edit he, route, visited, nonrecursive_eq hstep.sameContent hm hm₀]
    rfl
  have ho₀ : Offerable s₀ (route s₀.topicMap m₀ (cutFlags msgTopic)) := by
    rw [hroute]
    intro e he
    rw [hstep.subscribers]
    exact ho e he
  obtain ⟨r, s₁, n, s₂, hd, hloop⟩ := round_exists (cutFlags msgTopic).length 0 hm₀
    (by rwa [hroute]) ho₀ fun r s₁ m₁ htop hm₁ hr₁ ho₁ =>
      publishLoop_exists r hm₁ (length_truncate_lt htop) hr₁ ho₁
  have hrounds := round_rounds hm₀ hd (fun m₁ hm₁ _ hrec => publishLoop_rounds hm₁ hrec) hloop
  have hr₂ : s₂.Ready held msg 0 := hrounds.ready (by rwa [Nat.zero_add, hroute])
  obtain ⟨m₂, hm₂⟩ := hr₂.live
  have hup : updateSticky s msg (cutFlags msgTopic) (fetchTopic s.topicMap (cutFlags msgTopic)) =
      some (fetchTopic s₀.topicMap (cutFlags msgTopic), s₀) :=
    (updateSticky_step hn ha hs).mpr ⟨m, hm, hstep, rfl⟩
  have hrel : ∃ ms, psUnrefMsg s₂.messages (some msg) = some ms := by
    simp only [psUnrefMsg, hm₂, Option.bind_eq_bind, Option.bind_some]
    split
    · exact ⟨_, rfl⟩
    · exact ⟨_, rfl⟩
  obtain ⟨ms, hrel⟩ := hrel
  refine ⟨n, { s₂ with messages := ms }, ?_⟩
  simp only [psPublish, hm, htopic, publishLoop, ↓reduceIte, hup, hd, Option.bind_eq_bind,
    Option.bind_some]
  rw [hloop, Option.bind_some, hrel, Option.bind_some]

end PubSub
