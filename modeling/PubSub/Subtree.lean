import PubSub.Bus.Api
import PubSub.Bus.Routing
import PubSub.Queue.Bucket

/-! The subtree test of `push_child_sticky` and `ps_clean_sticky` against the loop
of `ps_publish`: a topic passes the test for a prefix just if a recursive message
on it visits the prefix. -/

namespace PubSub

open Lib

variable {Q : Type → Type} [PsQueue Q] [LawfulPsQueue Q]

/-- The control of the loop of `ps_publish` alone: the topic of each round. -/
def publishTopics (nonrecursive : Bool) : ℕ → Str → Option (List Str)
  | 0, _ => none
  | fuel + 1, topic =>
    if nonrecursive then some [topic]
    else if topic = [] then some [topic]
    else (publishTopics nonrecursive fuel (truncate topic)).map (topic :: ·)

/-- The loop of `ps_publish`, which also gives the topic that each round looks up. -/
def publishVisits (msg : MsgId) : ℕ → Bool → Str → ℕ → Bus Q → Option (List Str × ℕ × Bus Q)
  | 0, _, _, _, _ => none
  | fuel + 1, first, topic, ret, s => do
    let tm := fetchTopic s.topicMap topic
    let (tm, s) ← if first then updateSticky s msg topic tm else some (tm, s)
    let (ret, s) ← deliverAt msg topic tm ret s
    let m ← s.messages.cells.get msg
    if m.nonrecursive then some ([topic], ret, s)
    else if topic = [] then some ([topic], ret, s)
    else do
      let (topics, ret, s) ← publishVisits msg fuel false (truncate topic) ret s
      some (topic :: topics, ret, s)

/-- `ps_publish` with the topics that its loop looks up. -/
def psPublishVisits (s : Bus Q) (msg : MsgId) : Option (List Str × ℕ × Bus Q) := do
  let m ← s.messages.cells.get msg
  let msgTopic ← m.topic
  let topic := cutFlags msgTopic
  let (topics, ret, s) ← publishVisits msg (topic.length + 1) true topic 0 s
  let ms ← psUnrefMsg s.messages (some msg)
  some (topics, ret, { s with messages := ms })

section Erase

theorem publishVisits_erase (msg : MsgId) (fuel : ℕ) (first : Bool) (topic : Str) (ret : ℕ)
    (s : Bus Q) :
    (publishVisits msg fuel first topic ret s).map Prod.snd =
      publishLoop msg fuel first topic ret s := by
  induction fuel generalizing first topic ret s with
  | zero => rfl
  | succ fuel ih =>
    -- the first round and the others differ in the sticky step alone
    cases first
    all_goals
      simp only [publishVisits, publishLoop, Option.bind_eq_bind, Bool.false_eq_true, if_false,
        if_true]
      rw [Option.map_bind]
      congr 1
      funext x
      rw [Function.comp_apply, Option.map_bind]
      congr 1
      funext y
      rw [Function.comp_apply, Option.map_bind]
      congr 1
      funext m
      rw [Function.comp_apply]
      split
      · rfl
      · split
        · rfl
        · rw [← ih]
          cases publishVisits msg fuel false (truncate topic) y.1 y.2 <;> rfl

/-- Without the topics it is `ps_publish`. -/
theorem psPublishVisits_erase (s : Bus Q) (msg : MsgId) :
    (psPublishVisits s msg).map Prod.snd = psPublish s (some msg) := by
  simp only [psPublishVisits, psPublish, Option.bind_eq_bind]
  rw [Option.map_bind]
  congr 1
  funext m
  rw [Function.comp_apply, Option.map_bind]
  congr 1
  funext msgTopic
  rw [Function.comp_apply, ← publishVisits_erase]
  cases publishVisits msg ((cutFlags msgTopic).length + 1) true (cutFlags msgTopic) 0 s with
  | none => rfl
  | some r =>
    rw [Option.map_some, Option.bind_some, Option.bind_some]
    cases psUnrefMsg r.2.2.messages (some msg) <;> rfl

end Erase

section Visits
variable {s s' : Bus Q} {msg : MsgId} {m : PsMsg} {topic : Str} {topics : List Str} {ret n fuel : ℕ}

theorem updateSticky_sameContent {tm tm' : Option TopicId}
    (h : updateSticky s msg topic tm = some (tm', s')) :
    s.messages.SameContent s'.messages := by
  simp only [updateSticky, Option.bind_eq_bind, Option.bind_eq_some_iff] at h
  obtain ⟨m, -, h⟩ := h
  split at h
  case isTrue =>
    simp only [Option.bind_eq_some_iff] at h
    obtain ⟨t, -, ms₁, h₁, ms₂, h₂, heq⟩ := h
    cases heq
    exact (psUnrefMsg_sameContent h₁).trans (psRefMsg_sameContent h₂)
  case isFalse =>
    cases tm with
    | none =>
      cases h
      exact .refl _
    | some tm =>
      simp only [Option.bind_eq_some_iff] at h
      obtain ⟨t, -, h⟩ := h
      cases hold : t.sticky with
      | none =>
        rw [hold] at h
        cases h
        exact .refl _
      | some old =>
        rw [hold] at h
        simp only [Option.bind_eq_some_iff] at h
        obtain ⟨ms, hms, ⟨freed, topicMap⟩, -, heq⟩ := h
        cases heq
        exact psUnrefMsg_sameContent hms

theorem deliverAt_sameContent {tm : Option TopicId}
    (h : deliverAt msg topic tm ret s = some (n, s')) : s.messages.SameContent s'.messages := by
  cases tm with
  | none =>
    cases h
    exact .refl _
  | some tm =>
    simp only [deliverAt, Option.bind_eq_bind, Option.bind_eq_some_iff] at h
    obtain ⟨t, -, h⟩ := h
    obtain ⟨as, -, hpushes, -⟩ := deliver_offers h
    exact hpushes.sameShape.content

/-- The topics depend on the message's flag and topic alone. -/
theorem topics_of_publishVisits {first : Bool} (hm : s.messages.cells.get msg = some m)
    (h : publishVisits msg fuel first topic ret s = some (topics, n, s')) :
    publishTopics m.nonrecursive fuel topic = some topics := by
  induction fuel generalizing first topic topics ret s m with
  | zero => cases h
  | succ fuel ih =>
    simp only [publishVisits, Option.bind_eq_bind] at h
    have hsticky : ∃ tm s₁, s.messages.SameContent s₁.messages ∧
        ((deliverAt msg topic tm ret s₁).bind fun y => (y.2.messages.cells.get msg).bind fun m =>
          if m.nonrecursive then some ([topic], y.1, y.2)
          else if topic = [] then some ([topic], y.1, y.2)
          else (publishVisits msg fuel false (truncate topic) y.1 y.2).bind fun z =>
            some (topic :: z.1, z.2.1, z.2.2)) = some (topics, n, s') := by
      cases first with
      | true =>
        obtain ⟨⟨tm, s₁⟩, hup, hround⟩ := Option.bind_eq_some_iff.mp h
        exact ⟨tm, s₁, updateSticky_sameContent hup, hround⟩
      | false => exact ⟨_, s, .refl _, h⟩
    obtain ⟨tm, s₁, hsame₁, hround⟩ := hsticky
    obtain ⟨⟨ret₁, s₂⟩, hdeliver, hround⟩ := Option.bind_eq_some_iff.mp hround
    obtain ⟨m₂, hm₂, h⟩ := Option.bind_eq_some_iff.mp hround
    have hsame₂ := deliverAt_sameContent hdeliver
    have hflag := nonrecursive_eq (hsame₁.trans hsame₂) hm hm₂
    rw [publishTopics, ← hflag]
    split at h
    case isTrue hstop =>
      cases h
      rw [if_pos hstop]
    case isFalse hgo =>
      rw [if_neg hgo]
      split at h
      case isTrue hroot =>
        cases h
        rw [if_pos hroot]
      case isFalse hroot =>
        obtain ⟨⟨topics', n', s₃⟩, hrest, heq⟩ := Option.bind_eq_some_iff.mp h
        cases heq
        rw [if_neg hroot, ih hm₂ hrest]
        rfl

/-- The loop ends at the root, after the ancestors of the topic. -/
theorem publishTopics_eq (h : topic.length < fuel) :
    publishTopics false fuel topic = some (ancestors '.' topic) := by
  induction fuel generalizing topic with
  | zero => omega
  | succ fuel ih =>
    rw [publishTopics, if_neg Bool.false_ne_true]
    split
    case isTrue hroot =>
      rw [hroot, ancestors_nil]
    case isFalse hroot =>
      have hlt := length_truncate_lt hroot
      rw [ih (by omega), Option.map_some, ancestors_cons '.' hroot, truncate_eq]

end Visits

/-- The loop of a recursive publish on `t` ends, and has looked up just the prefixes
for which `t` passes the subtree test, whatever dots they hold. Every publish that
returns looks these up. -/
theorem inSubtree_iff_visited (t : Str) :
    (∃ topics, publishTopics false (t.length + 1) t = some topics ∧
      ∀ p, inSubtree p t = true ↔ p ∈ topics) ∧
    ∀ (s : Bus Q) (msg : MsgId) (m : PsMsg) (msgTopic : Str) (topics : List Str) (n : ℕ)
      (s' : Bus Q), s.messages.cells.get msg = some m → m.nonrecursive = false →
      m.topic = some msgTopic → cutFlags msgTopic = t →
      psPublishVisits s msg = some (topics, n, s') → ∀ p, inSubtree p t = true ↔ p ∈ topics := by
  have hloop := publishTopics_eq (Nat.lt_succ_self t.length)
  have hmem : ∀ p, inSubtree p t = true ↔ p ∈ ancestors '.' t := fun p =>
    inSubtree_iff.trans (mem_ancestors '.').symm
  refine ⟨⟨_, hloop, hmem⟩, ?_⟩
  intro s msg m msgTopic topics n s' hm hflag htopic hcut h
  simp only [psPublishVisits, hm, htopic, hcut, Option.bind_eq_bind, Option.bind_some,
    Option.bind_eq_some_iff] at h
  obtain ⟨⟨topics', ret, s₁⟩, hvisits, ms, -, heq⟩ := h
  cases heq
  have htopics := topics_of_publishVisits hm hvisits
  rw [hflag, hloop] at htopics
  cases htopics
  exact hmem

/-- A topic with a doubled and a trailing dot, and flags after the space. -/
theorem inSubtree_iff_visited_dots : ∃ s s' : Bus Bucket.Queue,
    (exec step [.newSubscriber 2 (some ["a".toList]), .newMsg (some "a..b. S".toList) 0x800 .nil]
      Bus.init).map Prod.snd = some s ∧
    psPublishVisits s 0 = some (["a..b.".toList, "a..b".toList, "a.".toList, "a".toList, []], 1, s') ∧
    ∀ p, inSubtree p "a..b.".toList = true ↔
      p ∈ ["a..b.".toList, "a..b".toList, "a.".toList, "a".toList, []] := by
  have hcalls : (exec (step (Q := Bucket.Queue)) [.newSubscriber 2 (some ["a".toList]),
      .newMsg (some "a..b. S".toList) 0x800 .nil] Bus.init).map (fun (_, s) =>
        (s.messages.cells.get 0, (psPublishVisits s 0).map fun x => (x.1, x.2.1))) =
      some (some ⟨1, some "a..b. S".toList, none, 0x800, 0, .nil⟩,
        some (["a..b.".toList, "a..b".toList, "a.".toList, "a".toList, []], 1)) := by
    decide +kernel
  obtain ⟨⟨rs, s⟩, hexec, heq⟩ := Option.map_eq_some_iff.mp hcalls
  obtain ⟨hm, hvisits⟩ := Prod.mk.inj heq
  obtain ⟨⟨topics, n, s'⟩, hvisits, heq⟩ := Option.map_eq_some_iff.mp hvisits
  obtain ⟨rfl, rfl⟩ := Prod.mk.inj heq
  exact ⟨s, s', by rw [hexec]; rfl, hvisits,
    (inSubtree_iff_visited "a..b.".toList).2 s 0 _ _ _ _ s' hm rfl rfl rfl hvisits⟩

end PubSub
