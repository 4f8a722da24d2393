import PubSub.Message

/-! The two comparisons of a message's topic with a string, `ps_has_topic_prefix`
and `ps_has_topic`, which have one body in the source. -/

namespace PubSub

/-- `strchr(s, ' ')` as an offset, or the length of a string without a space. -/
def flagOffset (s : Str) : ℕ := (s.findIdx? (· = ' ')).getD s.length

/-- The comparison up to the flags of `pre`. A message without a topic is undefined
behaviour. -/
def comparesUpToFlags (msg : Option PsMsg) (pre : Str) : Option Bool :=
  match msg with
  | none => some false
  | some msg => do
    let topic ← msg.topic
    let len := flagOffset pre
    some (strncmpEq pre topic len)

def psHasTopicPrefix (msg : Option PsMsg) (pre : Str) : Option Bool := comparesUpToFlags msg pre

def psHasTopic (msg : Option PsMsg) (topic : Str) : Option Bool := comparesUpToFlags msg topic

theorem take_flagOffset (s : Str) : s.take (flagOffset s) = cutFlags s := by
  have hidx : flagOffset s = s.findIdx (· = ' ') := List.findIdx_eq_getD_findIdx?.symm
  have hnot : ∀ c : Char, (!decide (c ≠ ' ')) = decide (c = ' ') := fun c => by simp
  rw [hidx, cutFlags, List.takeWhile_eq_take_findIdx_not]
  simp only [hnot]

theorem flagOffset_eq (s : Str) : flagOffset s = (cutFlags s).length := by
  have hle : flagOffset s ≤ s.length := by
    rw [flagOffset, ← List.findIdx_eq_getD_findIdx?]
    exact List.findIdx_le_length
  rw [← take_flagOffset, List.length_take, Nat.min_eq_left hle]

/-- A text without a space begins a topic string just if it begins the topic in it. -/
theorem prefix_cutFlags_iff {p M : Str} (hp : ' ' ∉ p) : p <+: cutFlags M ↔ p <+: M := by
  constructor
  · intro h
    exact h.trans (List.takeWhile_prefix _)
  · rintro ⟨rest, rfl⟩
    rw [cutFlags, List.takeWhile_append_of_pos fun c hc => ?_]
    · exact List.prefix_append p _
    · rw [decide_eq_true_eq]
      rintro rfl
      exact hp hc

/-- The body of both functions finds out whether one topic begins the other. -/
theorem comparesUpToFlags_eq {m : PsMsg} {M : Str} (hM : m.topic = some M) (pre : Str) :
    comparesUpToFlags (some m) pre = some (decide (cutFlags pre <+: cutFlags M)) := by
  have hcmp : strncmpEq pre M (flagOffset pre) = decide (cutFlags pre <+: cutFlags M) := by
    rw [strncmpEq, take_flagOffset, flagOffset_eq, decide_eq_decide, ← List.prefix_iff_eq_take]
    exact (prefix_cutFlags_iff (not_mem_cutFlags pre)).symm
  rw [comparesUpToFlags, hM, ← hcmp]
  rfl

/-- `ps_has_topic` tells equal topics, if and only if the topic of the string is no
proper beginning of that of the message. -/
theorem psHasTopic_iff {m : PsMsg} {M t : Str} (hM : m.topic = some M) :
    (psHasTopic (some m) t = some (decide (cutFlags M = cutFlags t))) ↔
      ¬ (cutFlags t <+: cutFlags M ∧ cutFlags t ≠ cutFlags M) := by
  rw [psHasTopic, comparesUpToFlags_eq hM, Option.some.injEq, decide_eq_decide]
  constructor
  · rintro h ⟨hpre, hne⟩
    exact hne (h.mp hpre).symm
  · intro h
    constructor
    · intro hpre
      by_contra hne
      exact h ⟨hpre, fun heq => hne heq.symm⟩
    · intro heq
      rw [heq]

/-- A topic longer than the message's, with a flag suffix. -/
theorem psHasTopic_iff_longer :
    psHasTopic (some ⟨1, some "foo.bar".toList, none, 0x800, 0, .nil⟩) "foo.bar.baz p5".toList =
      some (decide (cutFlags "foo.bar".toList = cutFlags "foo.bar.baz p5".toList)) :=
  (psHasTopic_iff rfl).mpr (by decide)

/-- The message's topic is "foo.bar", and the string is "foo". -/
theorem psHasTopic_proper_prefix :
    ¬ ∀ (m : PsMsg) (M t : Str), m.topic = some M →
      psHasTopic (some m) t = some (decide (cutFlags M = cutFlags t)) := by
  intro h
  have heq := h ⟨1, some "foo.bar".toList, none, 0x800, 0, .nil⟩ _ "foo".toList rfl
  exact absurd heq (by decide)

end PubSub
