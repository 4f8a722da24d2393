import PubSub.Bus.Api
import PubSub.Queue.Bucket

/-! The references of clients that give up each reference they hold at most once,
over runs of any length. -/

namespace PubSub

open Lib Bus

variable {Q : Type → Type} [PsQueue Q] [LawfulPsQueue Q]

/-- The bus and the references that its clients hold. -/
structure Client (Q : Type → Type) [PsQueue Q] [LawfulPsQueue Q] where
  bus : Bus Q
  held : MsgId → ℕ

namespace Client

def start : Client Q := ⟨.init, fun _ => 0⟩

/-- A call by a client that holds the reference it gives up. -/
def step (c : Client Q) (op : Op) : Option (Ret × Client Q) :=
  if op.gives.all fun msg => 0 < c.held msg then
    (PubSub.step c.bus op).map fun (r, s) =>
      (r, ⟨s, fun i => c.held i - ownRef op.gives i + ownRef r.gets i⟩)
  else none

abbrev Reaches (c : Client Q) (h : List Label) (c' : Client Q) : Prop :=
  Run (fun c e c' => c.step e.1 = some (e.2, c')) c h c'

/-- The invariant of the bus, with the clients' references in the account. -/
structure Accounted (c : Client Q) : Prop where
  ok : c.bus.Ok
  subStatOk : c.bus.SubStatOk
  refOk : c.bus.RefOk c.held

theorem step_eq_some {c c' : Client Q} {op : Op} {r : Ret} (h : c.step op = some (r, c')) :
    PubSub.step c.bus op = some (r, c'.bus) ∧ (∀ i, ownRef op.gives i ≤ c.held i) ∧
      c'.held = fun i => c.held i - ownRef op.gives i + ownRef r.gets i := by
  rw [step] at h
  split at h
  case isFalse => cases h
  case isTrue hgives =>
    obtain ⟨⟨r', s'⟩, hs, heq⟩ := Option.map_eq_some_iff.mp h
    cases heq
    refine ⟨hs, fun i => ?_, rfl⟩
    rw [ownRef]
    split
    case isTrue hi =>
      rw [hi] at hgives
      have : 0 < c.held i := by simpa using hgives
      exact this
    case isFalse => exact Nat.zero_le _

theorem Accounted.start : Accounted (start : Client Q) := by
  refine ⟨init_ok, rfl, fun _ i => ?_⟩
  have hzero : (Bus.init : Bus Q).account (fun _ => 0) i = 0 := rfl
  rw [Client.start, hzero]
  exact ⟨rfl, by simp [Bus.init]⟩

theorem Accounted.step {c c' : Client Q} {op : Op} {r : Ret} (ha : c.Accounted)
    (h : c.step op = some (r, c')) : c'.Accounted := by
  obtain ⟨hs, hgives, hheld⟩ := step_eq_some h
  have hspec := step_spec ha.ok hs
  refine ⟨hspec.ok, hspec.subStatOk ha.subStatOk, ?_⟩
  have hsplit : c.held = (fun i => c.held i - ownRef op.gives i) + ownRef op.gives := by
    funext i
    have := hgives i
    simp only [Pi.add_apply]
    omega
  have hr := ha.refOk
  rw [hsplit] at hr
  rw [hheld]
  exact hspec.refOk _ hr

theorem Reaches.accounted {h : List Label} {c : Client Q} (hr : start.Reaches h c) :
    c.Accounted :=
  hr.invariant .start fun _ _ _ ha hs => ha.step hs

/-- The calls of the clients are calls. -/
theorem Reaches.bus {h : List Label} {c : Client Q} (hr : start.Reaches h c) :
    Bus.init.Reaches h c.bus := by
  induction hr with
  | nil => exact .nil
  | snoc _ hs ih => exact ih.snoc (step_eq_some hs).1

/-- Without client references and subscribers, all that is left is sticky messages,
and `ps_clean_sticky("")` takes them away. -/
theorem Accounted.clean_all {c : Client Q} (ha : c.Accounted) (hw : c.bus.messages.refWrap = false)
    (hheld : ∀ i, c.held i = 0) (hsubs : ∀ su, c.bus.subscribers.get su = none) :
    ∃ s', psCleanSticky c.bus [] = some s' ∧ s'.messages.statLiveMsg = 0 ∧
      s'.statLiveSubscribers = 0 ∧ (∀ tm, s'.topicMap.get tm = none) ∧
      ∀ i, s'.messages.cells.get i = none := by
  obtain ⟨s', hs', hw'⟩ := psCleanSticky_exists [] ha.ok.names ha.ok.alive ha.refOk hw
  have hc := psCleanSticky_cleaned ha.ok.names ha.ok.alive hs'
  have hlinks : Links (entriesOf s'.topicMap) (subsOf s'.subscribers) := by
    rw [hc.entriesOf, hc.subscribers]
    exact ha.ok.links
  have htopics : ∀ tm, s'.topicMap.get tm = none := by
    intro tm
    cases ht : s'.topicMap.get tm with
    | none => rfl
    | some t =>
      refine absurd ⟨?_, ?_⟩ (hc.alive tm t ht)
      · refine List.eq_nil_iff_forall_not_mem.mpr fun sl hsl => ?_
        have hlive := hlinks.live tm sl (by rw [entriesOf, ht]; exact hsl)
        rw [hc.subscribers, subsOf, hsubs] at hlive
        cases hlive
      · have hst : stickyAt s'.topicMap t.topic = t.sticky := by
          rw [stickyAt, topicAt_topic hc.names ht, Option.bind_some]
        rw [← hst]
        refine Option.eq_none_iff_forall_ne_some.mpr fun msg hmsg => ?_
        exact ((hc.sticky _ _).mp hmsg).2 rfl
  have hmsgs : ∀ i, s'.messages.cells.get i = none := by
    intro i
    have hslots : slotsOf s'.subscribers i = 0 := by
      rw [hc.subscribers]
      exact Cells.sum_eq_zero.mpr fun su S hS => by rw [hsubs su] at hS; cases hS
    have hstickies : stickies s'.topicMap i = 0 :=
      Cells.sum_eq_zero.mpr fun tm t ht => by rw [htopics tm] at ht; cases ht
    have hlive := (hc.refOk c.held ha.refOk hw' i).2
    simp only [Bus.account, Pi.add_apply, hslots, hstickies, hheld] at hlive
    simpa using hlive
  refine ⟨s', hs', ?_, ?_, htopics, hmsgs⟩
  · rw [hc.statOk ha.ok.statOk, Cells.size_eq_zero.mpr hmsgs]
    rfl
  · have hsize := Cells.size_eq_zero.mpr hsubs
    rw [hc.statLiveSubscribers, ha.subStatOk, hsize]
    rfl

/-- After every run without 2^32 references to one message: the counter of each
existing message is the number of its queue slots, sticky topics and client
references; a message exists exactly while that sum is not 0; `stat_live_msg` is
the number of messages; and once the clients hold nothing and have freed their
subscribers, `ps_clean_sticky("")` leaves nothing. -/
theorem references_accounted {h : List Label} {c : Client Q} (hr : start.Reaches h c)
    (hw : c.bus.messages.refWrap = false) :
    (∀ i m, c.bus.messages.cells.get i = some m → m.ref.toNat =
      slotsOf c.bus.subscribers i + stickies c.bus.topicMap i + c.held i) ∧
    (∀ i, (c.bus.messages.cells.get i).isSome ↔
      0 < slotsOf c.bus.subscribers i + stickies c.bus.topicMap i + c.held i) ∧
    c.bus.messages.statLiveMsg = UInt32.ofNat c.bus.messages.cells.size ∧
    ((∀ i, c.held i = 0) → (∀ su, c.bus.subscribers.get su = none) →
      ∃ s', psCleanSticky c.bus [] = some s' ∧ s'.messages.statLiveMsg = 0 ∧
        s'.statLiveSubscribers = 0 ∧ (∀ tm, s'.topicMap.get tm = none) ∧
        ∀ i, s'.messages.cells.get i = none) := by
  have ha := hr.accounted
  refine ⟨fun i m hm => ?_, fun i => (ha.refOk hw i).2, ha.ok.statOk, ha.clean_all hw⟩
  rw [← Messages.refs_of_get hm]
  exact (ha.refOk hw i).1

/-- A sticky message that evicts another from a full queue: one slot and one topic
refer to it, and its counter is 2. -/
theorem references_accounted_evict : ∃ c : Client Bucket.Queue,
    exec Client.step [.newSubscriber 1 (some ["a".toList, "".toList]),
      .subscribe 0 "b p5".toList, .newMsg (some "a".toList) 0x801 .nil, .publish (some 0),
      .newMsg (some "b".toList) 0x801 .nil, .publish (some 1)] Client.start =
      some ([.subscriber 0, .int 0, .msg (some 0), .int 1, .msg (some 1), .int 0], c) ∧
    (c.bus.messages.cells.get 1).map (fun m => m.ref) = some 2 ∧
    slotsOf c.bus.subscribers 1 + stickies c.bus.topicMap 1 + c.held 1 = 2 ∧
    ∀ i m, c.bus.messages.cells.get i = some m → m.ref.toNat =
      slotsOf c.bus.subscribers i + stickies c.bus.topicMap i + c.held i := by
  refine ⟨_, rfl, rfl, rfl, ?_⟩
  have hrun := run_of_exec (f := Client.step (Q := Bucket.Queue)) (s := Client.start)
    (l := [.newSubscriber 1 (some ["a".toList, "".toList]),
      .subscribe 0 "b p5".toList, .newMsg (some "a".toList) 0x801 .nil, .publish (some 0),
      .newMsg (some "b".toList) 0x801 .nil, .publish (some 1)]) rfl
  exact (references_accounted hrun rfl).1

end Client

end PubSub
