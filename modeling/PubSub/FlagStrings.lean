import PubSub.SubscriptionLaws

/-! The flags of a subscription as a text after the topic and as a struct. The
loop of `ps_subscribe_flags` is described by what the text contains, and the
suffixes that `pubsub.h` defines say the same as the struct, in any order. -/

namespace PubSub

open Lib Bus

/-- The digits that stand right behind a `p`, in their order. -/
def priorityDigits (flStr : Str) : List Char :=
  ((flStr.zip flStr.tail).filter fun x => x.1 = 'p' && x.2.isDigit).map Prod.snd

/-- The text after the first space; no space, no text. -/
def flagsIn (topicOrig : Str) : Str := (flagText topicOrig).getD []

/-- `d - '0'`. -/
def digitValue (d : Char) : UInt8 := d.toUInt8 - '0'.toUInt8

/-- The flags that a text sets over `flags`. -/
def describedFlags (flags : PsSubFlags) (flStr : Str) : PsSubFlags where
  hidden := flags.hidden || 'h' ∈ flStr
  onEmpty := flags.onEmpty || 'e' ∈ flStr
  noSticky := flags.noSticky || 's' ∈ flStr
  childSticky := flags.childSticky || 'S' ∈ flStr
  priority := ((priorityDigits flStr).getLast?.map digitValue).getD flags.priority

section Parse
variable {flags : PsSubFlags} {flStr : Str}

@[simp] theorem priorityDigits_nil : priorityDigits [] = [] := rfl

theorem priorityDigits_cons {c : Char} (hc : c ≠ 'p') (flStr : Str) :
    priorityDigits (c :: flStr) = priorityDigits flStr := by
  cases flStr with
  | nil => rfl
  | cons d flStr => simp [priorityDigits, hc]

theorem priorityDigits_p_cons (d : Char) (flStr : Str) :
    priorityDigits ('p' :: d :: flStr) =
      (if d.isDigit then [d] else []) ++ priorityDigits (d :: flStr) := by
  by_cases hd : d.isDigit = true
  · simp [priorityDigits, hd]
  · simp [priorityDigits, hd]

/-- One round of the loop, for a character that is not a `p`. -/
theorem parseFlags_cons {c : Char} (hc : c ≠ 'p') (flags : PsSubFlags) (flStr : Str) :
    parseFlags flags (c :: flStr) = parseFlags
      { hidden := flags.hidden || c = 'h', onEmpty := flags.onEmpty || c = 'e'
        noSticky := flags.noSticky || c = 's', childSticky := flags.childSticky || c = 'S'
        priority := flags.priority } flStr := by
  rw [parseFlags.eq_def]
  dsimp only
  congr 1
  rw [if_neg hc]
  by_cases hh : c = 'h'
  · simp [hh]
  by_cases hs : c = 's'
  · simp [hs]
  by_cases hS : c = 'S'
  · simp [hS]
  by_cases he : c = 'e'
  · simp [he]
  simp [hh, hs, hS, he]

/-- The loop sets what the text describes. The character after a `p` is read again
as one of its own, which sets nothing if it is a digit. -/
theorem parseFlags_eq (flags : PsSubFlags) (flStr : Str) :
    parseFlags flags flStr = describedFlags flags flStr := by
  induction flStr generalizing flags with
  | nil => simp [parseFlags, describedFlags]
  | cons c flStr ih =>
    by_cases hp : c = 'p'
    · subst hp
      rw [parseFlags.eq_def]
      cases flStr with
      | nil => simp [parseFlags, describedFlags, priorityDigits]
      | cons d flStr =>
        have hlast : ∀ l : List Char, (d :: l).getLast? = some (l.getLast?.getD d) :=
          fun l => List.getLast?_cons
        simp only [ih, describedFlags, priorityDigits_p_cons]
        by_cases hd : d.isDigit = true
        · simp only [hd, if_true, List.singleton_append, hlast, List.mem_cons]
          cases (priorityDigits (d :: flStr)).getLast? <;> simp [digitValue]
        · simp [hd]
    · rw [parseFlags_cons hp, ih]
      simp only [describedFlags, priorityDigits_cons hp, List.mem_cons, Bool.decide_or,
        Bool.or_assoc, eq_comm (a := c)]

example : parseFlags noSubFlags "p x p3 pp5hp".toList = ⟨true, false, false, false, 5⟩ := by decide

end Parse

/-- The flags of a subscription are those passed with what the text describes. -/
theorem subFlags_eq (topicOrig : Str) (pflags : Option PsSubFlags) :
    subFlags topicOrig pflags = describedFlags (pflags.getD noSubFlags) (flagsIn topicOrig) := by
  rw [subFlags, flagsIn]
  cases flagText topicOrig with
  | none => simp [describedFlags]
  | some flStr => exact parseFlags_eq _ flStr

theorem flagText_eq_none {t : Str} (h : ' ' ∉ t) : flagText t = none := by
  have hall : ∀ c ∈ t, decide (c ≠ ' ') = true := by
    intro c hc
    rw [decide_eq_true_eq]
    rintro rfl
    exact h hc
  rw [flagText, List.dropWhile_eq_nil_iff.mpr hall]

theorem subFlags_of_plain {t : Str} (h : ' ' ∉ t) (pflags : Option PsSubFlags) :
    subFlags t pflags = pflags.getD noSubFlags := by
  rw [subFlags, flagText_eq_none h]

/-- A subscription with flags in the string is one to the plain topic with these flags. -/
theorem psSubscribeFlags_eq_plain {Q : Type → Type} [PsQueue Q] [LawfulPsQueue Q] (s : Bus Q)
    (su : SubId) (topicOrig : Str) (pflags : Option PsSubFlags) :
    psSubscribeFlags s su topicOrig pflags =
      psSubscribeFlags s su (cutFlags topicOrig) (some (subFlags topicOrig pflags)) := by
  have hnot := not_mem_cutFlags topicOrig
  simp only [psSubscribeFlags, cutFlags_eq_self hnot, subFlags_of_plain hnot, Option.getD_some]

/-! ### The suffixes of `pubsub.h` -/

/-- `PS_SUB_PRIO(n)`, `PS_SUB_HIDDEN`, `PS_SUB_EMPTY`, `PS_SUB_NOSTICKY` and
`PS_SUB_CHILDSTICKY`. -/
inductive SubSuffix where
  | prio (n : Fin 10)
  | hidden
  | empty
  | noSticky
  | childSticky
  deriving DecidableEq

def SubSuffix.text : SubSuffix → Str
  | .prio n => [' ', 'p', Nat.digitChar n]
  | .hidden => [' ', 'h']
  | .empty => [' ', 'e']
  | .noSticky => [' ', 's']
  | .childSticky => [' ', 'S']

/-- A topic followed by suffixes. -/
def withSuffixes (topic : Str) (l : List SubSuffix) : Str := topic ++ l.flatMap SubSuffix.text

/-- The suffixes say what the struct says; the priority 0 may be left out. -/
structure Encodes (flags : PsSubFlags) (l : List SubSuffix) : Prop where
  hidden : .hidden ∈ l ↔ flags.hidden = true
  onEmpty : .empty ∈ l ↔ flags.onEmpty = true
  noSticky : .noSticky ∈ l ↔ flags.noSticky = true
  childSticky : .childSticky ∈ l ↔ flags.childSticky = true
  prio : ∀ n, .prio n ∈ l → n.val = flags.priority.toNat
  prio_mem : flags.priority = 0 ∨ ∃ n, .prio n ∈ l

/-- One suffix for each flag that is set, and one for the priority. -/
def suffixes (flags : PsSubFlags) : List SubSuffix :=
  [.prio (Fin.ofNat 10 flags.priority.toNat)] ++ (if flags.hidden then [.hidden] else []) ++
    (if flags.onEmpty then [.empty] else []) ++ (if flags.noSticky then [.noSticky] else []) ++
    (if flags.childSticky then [.childSticky] else [])

theorem encodes_of_perm {flags : PsSubFlags} (hp : flags.priority ≤ 9) {l : List SubSuffix}
    (hl : l.Perm (suffixes flags)) : Encodes flags l := by
  have hlt : flags.priority.toNat ≤ 9 := hp
  have hval : (Fin.ofNat 10 flags.priority.toNat).val = flags.priority.toNat :=
    Nat.mod_eq_of_lt (by omega)
  constructor
  case prio =>
    intro n hn
    rw [hl.mem_iff] at hn
    obtain rfl : n = Fin.ofNat 10 flags.priority.toNat := by simpa [suffixes] using hn
    exact hval
  case prio_mem => exact .inr ⟨Fin.ofNat 10 flags.priority.toNat, hl.mem_iff.mpr (by simp [suffixes])⟩
  all_goals
    rw [hl.mem_iff]
    simp [suffixes]

section Suffixes
variable {flags : PsSubFlags} {l : List SubSuffix} {topic : Str}

/-- Each flag character is in one suffix only. -/
theorem mem_suffixText (x : SubSuffix) :
    ('h' ∈ x.text ↔ x = .hidden) ∧ ('e' ∈ x.text ↔ x = .empty) ∧
    ('s' ∈ x.text ↔ x = .noSticky) ∧ ('S' ∈ x.text ↔ x = .childSticky) := by
  cases x with
  | prio n =>
    revert n
    decide
  | hidden => decide
  | empty => decide
  | noSticky => decide
  | childSticky => decide

def SubSuffix.digit : SubSuffix → Option Char
  | .prio n => some (Nat.digitChar n)
  | _ => none

theorem digitChar_facts (n : Fin 10) : (Nat.digitChar n).isDigit = true ∧
    Nat.digitChar n ≠ 'p' ∧ (digitValue (Nat.digitChar n)).toNat = n := by
  revert n
  decide

/-- The priorities that a text of suffixes sets, in their order. -/
theorem priorityDigits_suffixes (l : List SubSuffix) :
    priorityDigits (l.flatMap SubSuffix.text) = l.filterMap SubSuffix.digit := by
  induction l with
  | nil => rfl
  | cons x l ih =>
    rw [List.flatMap_cons]
    cases x with
    | prio n =>
      obtain ⟨hdigit, hp, -⟩ := digitChar_facts n
      have htext : (SubSuffix.prio n).text ++ l.flatMap SubSuffix.text =
          ' ' :: 'p' :: Nat.digitChar n :: l.flatMap SubSuffix.text := rfl
      rw [htext, priorityDigits_cons (by decide), priorityDigits_p_cons, if_pos hdigit,
        priorityDigits_cons hp, ih]
      rfl
    | hidden =>
      exact (priorityDigits_cons (by decide) _).trans ((priorityDigits_cons (by decide) _).trans ih)
    | empty =>
      exact (priorityDigits_cons (by decide) _).trans ((priorityDigits_cons (by decide) _).trans ih)
    | noSticky =>
      exact (priorityDigits_cons (by decide) _).trans ((priorityDigits_cons (by decide) _).trans ih)
    | childSticky =>
      exact (priorityDigits_cons (by decide) _).trans ((priorityDigits_cons (by decide) _).trans ih)

/-- Behind the topic stands a space and then the text of the flags, or nothing. -/
theorem cutFlags_withSuffixes (h : ' ' ∉ topic) (l : List SubSuffix) :
    cutFlags (withSuffixes topic l) = topic ∧
    flagsIn (withSuffixes topic l) = (l.flatMap SubSuffix.text).tail := by
  have hall : ∀ c ∈ topic, decide (c ≠ ' ') = true := by
    intro c hc
    rw [decide_eq_true_eq]
    rintro rfl
    exact h hc
  have hstart : l.flatMap SubSuffix.text = [] ∨
      ∃ rest, l.flatMap SubSuffix.text = ' ' :: rest := by
    cases l with
    | nil => exact .inl rfl
    | cons x l => cases x <;> exact .inr ⟨_, rfl⟩
  rw [cutFlags, flagsIn, flagText, withSuffixes, List.takeWhile_append_of_pos hall,
    List.dropWhile_append_of_pos hall]
  rcases hstart with hnil | ⟨rest, hrest⟩
  · simp [hnil]
  · simp [hrest]

theorem mem_tail_suffixes {c : Char} (hc : c ≠ ' ') :
    c ∈ (l.flatMap SubSuffix.text).tail ↔ ∃ x ∈ l, c ∈ x.text := by
  rw [← List.mem_flatMap]
  cases l with
  | nil => simp
  | cons x l => cases x <;> simp [SubSuffix.text, hc]

/-- The text of suffixes that encode a struct describes that struct. -/
theorem describedFlags_suffixes (h : Encodes flags l) :
    describedFlags noSubFlags (l.flatMap SubSuffix.text).tail = flags := by
  have hdigits : priorityDigits (l.flatMap SubSuffix.text).tail = l.filterMap SubSuffix.digit := by
    rw [← priorityDigits_suffixes]
    cases l with
    | nil => rfl
    | cons x l => cases x <;> exact (priorityDigits_cons (by decide) _).symm
  have hmem : ∀ c, c ≠ ' ' → ∀ y, (∀ x : SubSuffix, c ∈ x.text ↔ x = y) → ∀ b : Bool,
      (y ∈ l ↔ b = true) → (false || decide (c ∈ (l.flatMap SubSuffix.text).tail)) = b := by
    intro c hc y hy b hb
    rw [Bool.false_or, Bool.eq_iff_iff, decide_eq_true_eq, mem_tail_suffixes hc, ← hb]
    simp [hy]
  have hpriority : ((l.filterMap SubSuffix.digit).getLast?.map digitValue).getD 0 =
      flags.priority := by
    cases hlast : (l.filterMap SubSuffix.digit).getLast? with
    | none =>
      rw [List.getLast?_eq_none_iff, List.filterMap_eq_nil_iff] at hlast
      rcases h.prio_mem with hzero | ⟨n, hn⟩
      · exact hzero.symm
      · cases hlast _ hn
    | some d =>
      obtain ⟨x, hx, hd⟩ := List.mem_filterMap.mp (List.mem_of_getLast? hlast)
      cases x with
      | prio n =>
        cases hd
        apply UInt8.toNat_inj.mp
        rw [← h.prio n hx]
        exact (digitChar_facts n).2.2
      | _ => cases hd
  obtain ⟨hidden, onEmpty, noSticky, childSticky, priority⟩ := flags
  simp only [describedFlags, noSubFlags, hdigits, PsSubFlags.mk.injEq]
  exact ⟨hmem 'h' (by decide) _ (fun x => (mem_suffixText x).1) _ h.hidden,
    hmem 'e' (by decide) _ (fun x => (mem_suffixText x).2.1) _ h.onEmpty,
    hmem 's' (by decide) _ (fun x => (mem_suffixText x).2.2.1) _ h.noSticky,
    hmem 'S' (by decide) _ (fun x => (mem_suffixText x).2.2.2) _ h.childSticky, hpriority⟩

end Suffixes

/-- A subscription is made to the text before the first space, with the flags that are
passed or stand in the text after it, and the last priority there: these are in the new
entry, and the replay is the one that they ask for. Suffixes that encode a struct, in any
order, do what the struct does. -/
theorem flag_strings {Q : Type → Type} [PsQueue Q] [LawfulPsQueue Q] (s : Bus Q) (su : SubId) :
    (∀ topicOrig pflags, psSubscribeFlags s su topicOrig pflags =
      psSubscribeFlags s su (cutFlags topicOrig)
        (some (describedFlags (pflags.getD noSubFlags) (flagsIn topicOrig)))) ∧
    (∀ topic flags l, ' ' ∉ topic → Encodes flags l →
      psSubscribeFlags s su (withSuffixes topic l) none =
        psSubscribeFlags s su topic (some flags)) ∧
    (∀ flags l, flags.priority ≤ 9 → l.Perm (suffixes flags) → Encodes flags l) ∧
    ∀ h, Bus.init.Reaches h s → ∀ topicOrig pflags flags,
      flags = describedFlags (pflags.getD noSubFlags) (flagsIn topicOrig) →
      su ∉ (entriesAt s.topicMap (cutFlags topicOrig)).map SubscriberList.su →
      (∀ r s', psSubscribeFlags s su topicOrig pflags = some (r, s') → r = 0 ∧
        entriesAt s'.topicMap = Function.update (entriesAt s.topicMap) (cutFlags topicOrig)
          (entriesAt s.topicMap (cutFlags topicOrig) ++
            [⟨su, flags.hidden, flags.onEmpty, flags.priority.toInt8⟩]) ∧
        ∃ us ps, Replayed s su (cutFlags topicOrig) flags us ps s') ∧
      ∀ held, s.RefOk held → s.messages.refWrap = false → (s.subscribers.get su).isSome →
        flags.priority ≤ 9 →
        (∀ u ∈ replayedTopics s.topicMap (cutFlags topicOrig) flags, ∀ i,
          stickyAt s.topicMap u = some i → s.account held i +
            (replayedTopics s.topicMap (cutFlags topicOrig) flags).length < 2 ^ 32) →
        (psSubscribeFlags s su topicOrig pflags).isSome := by
  have hplain : ∀ topicOrig pflags, psSubscribeFlags s su topicOrig pflags =
      psSubscribeFlags s su (cutFlags topicOrig)
        (some (describedFlags (pflags.getD noSubFlags) (flagsIn topicOrig))) := by
    intro topicOrig pflags
    rw [psSubscribeFlags_eq_plain, subFlags_eq]
  refine ⟨hplain, fun topic flags l htopic hl => ?_, fun flags l hp hl => encodes_of_perm hp hl,
    fun h hr topicOrig pflags flags hflags hout =>
      ⟨fun r s' hs => ?_, fun held hheld hw hsu hp hroom => ?_⟩⟩
  · obtain ⟨hcut, htext⟩ := cutFlags_withSuffixes htopic l
    rw [hplain, hcut, htext, Option.getD_none, describedFlags_suffixes hl]
  · rw [← subFlags_eq] at hflags
    subst hflags
    obtain ⟨rfl, hentries⟩ := (psSubscribeFlags_laws hr.ok hs).2.2 hout
    exact ⟨rfl, hentries, psSubscribeFlags_replayed hr.ok hs⟩
  · rw [← subFlags_eq] at hflags
    subst hflags
    obtain ⟨S, hS⟩ := Option.isSome_iff_exists.mp hsu
    have hlt : (subFlags topicOrig pflags).priority.toNat < 10 := Nat.lt_succ_of_le hp
    obtain ⟨r, s', hs⟩ := psSubscribeFlags_exists hr.ok hheld hw hS hlt hroom
    rw [hs]
    rfl

/-- A sticky message below the topic, and the suffixes out of order: the entry and the
replay, and the same from the struct. -/
theorem flag_strings_shuffled : ∃ (h : List Label) (s s' : Bus Bucket.Queue),
    Bus.init.Reaches h s ∧ psSubscribeFlags s 0 "a.b S p7 h".toList none = some (0, s') ∧
    psSubscribeFlags s 0 "a.b".toList (some ⟨true, false, false, true, 7⟩) = some (0, s') ∧
    entriesAt s'.topicMap = Function.update (entriesAt s.topicMap) "a.b".toList
      [⟨0, true, false, 7⟩] ∧
    s'.pushes = [⟨0, "a.b".toList, 0, 7, .ok⟩] ∧
    ∃ us ps, Replayed s 0 "a.b".toList ⟨true, false, false, true, 7⟩ us ps s' := by
  have hcalls : ((exec (step (Q := Bucket.Queue)) [.newMsg (some "a.b.c".toList) 0x801 .nil,
      .publish (some 0), .newSubscriber 1 none] Bus.init).bind fun (_, s) =>
        (psSubscribeFlags s 0 "a.b S p7 h".toList none).map
          fun (r, s') => (entriesAt s.topicMap "a.b".toList, r, s'.pushes)) =
      some ([], 0, [⟨0, "a.b".toList, 0, 7, .ok⟩]) := by
    decide +kernel
  obtain ⟨⟨rs, s⟩, hexec, hlast⟩ := Option.bind_eq_some_iff.mp hcalls
  obtain ⟨⟨r, s'⟩, hsub, heq⟩ := Option.map_eq_some_iff.mp hlast
  simp only [Prod.mk.injEq] at heq
  obtain ⟨hnone, rfl, hpushes⟩ := heq
  have hrun := run_of_exec hexec
  obtain ⟨-, hencoded, hperm, hentry⟩ := flag_strings s 0
  have hl : [SubSuffix.childSticky, .prio 7, .hidden].Perm
      (suffixes ⟨true, false, false, true, 7⟩) := by decide
  have hstruct := hencoded "a.b".toList _ _ (by decide) (hperm _ _ (by decide) hl)
  have hcut : cutFlags "a.b S p7 h".toList = "a.b".toList := rfl
  obtain ⟨hreturned, -⟩ := hentry _ hrun "a.b S p7 h".toList none ⟨true, false, false, true, 7⟩
    (by decide) (by rw [hcut, hnone]; decide)
  obtain ⟨-, hentries, hreplay⟩ := hreturned 0 s' hsub
  rw [hcut, hnone] at hentries
  exact ⟨_, s, s', hrun, hsub, hstruct.symm.trans hsub, hentries, hpushes, hreplay⟩

end PubSub
