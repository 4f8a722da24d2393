import PubSub.Origins
import PubSub.Ownership

/-! The priorities of the entries. A priority in the topic string is one digit; that of a
`ps_sub_flags_t` is any byte, so a run has to keep to the ten. -/

namespace PubSub

open Lib Bus

variable {Q : Type → Type} [PsQueue Q] [LawfulPsQueue Q]

/-- The priority in effect of a new subscription is one of the ten. -/
def PriorityOk (s : Bus Q) : Op → Prop
  | .subscribeFlags su topic flags =>
    su ∉ (entriesAt s.topicMap (cutFlags topic)).map SubscriberList.su →
      (subFlags topic flags).priority.toNat < Bucket.PRIORITIES
  | _ => True

theorem digit_lt {d : Char} (h : d.isDigit = true) :
    (d.toUInt8 - '0'.toUInt8).toNat < Bucket.PRIORITIES := by
  simp only [Char.isDigit, ge_iff_le, Bool.and_eq_true, decide_eq_true_eq,
    UInt32.le_iff_toNat_le] at h
  have hlow : '0'.val.toNat = 48 := rfl
  have hhigh : '9'.val.toNat = 57 := rfl
  have hd : d.toUInt8.toNat = d.val.toNat % 256 := UInt32.toNat_toUInt8 d.val
  have hz : '0'.toUInt8 = 48 := rfl
  rw [hlow, hhigh] at h
  rw [hz, UInt8.toNat_sub, hd]
  simp only [UInt8.reduceToNat, Bucket.PRIORITIES]
  omega

/-- A topic string sets no priority but those of one digit. -/
theorem parseFlags_priority {flags : PsSubFlags} (h : flags.priority.toNat < Bucket.PRIORITIES)
    (flStr : Str) : (parseFlags flags flStr).priority.toNat < Bucket.PRIORITIES := by
  induction flStr generalizing flags with
  | nil => exact h
  | cons c flStr ih =>
    rw [parseFlags.eq_def]
    apply ih
    split
    · exact h
    split
    · exact h
    split
    · exact h
    split
    · exact h
    split
    · split
      · split
        case isTrue hd => exact digit_lt hd
        case isFalse => exact h
      · exact h
    · exact h

theorem subFlags_none_priority (topic : Str) :
    (subFlags topic none).priority.toNat < Bucket.PRIORITIES := by
  have hzero : noSubFlags.priority.toNat < Bucket.PRIORITIES := by decide
  rw [subFlags]
  split
  · exact hzero
  · exact parseFlags_priority hzero _

/-- The stored priorities are below `PRIORITIES`. -/
def Bus.PrioritiesOk (s : Bus Q) : Prop :=
  ∀ name, ∀ sl ∈ entriesAt s.topicMap name, sl.priority.toUInt8.toNat < Bucket.PRIORITIES

section Requests
variable {s s' : Bus Q} {op : Op} {r : Ret}

/-- A call asks for priorities of one digit, or it changes nothing. -/
theorem requested_priority (hok : s.Ok) (hp : PriorityOk s op) (hs : step s op = some (r, s')) :
    s' = s ∨ ∀ sub ∈ (requested s op).2,
      (subFlags sub.1 sub.2).priority.toNat < Bucket.PRIORITIES := by
  have hnone : ∀ topics : List Str, ∀ sub ∈ topics.map (fun x => (x, (none : Option PsSubFlags))),
      (subFlags sub.1 sub.2).priority.toNat < Bucket.PRIORITIES := by
    intro topics sub hsub
    obtain ⟨topic, -, rfl⟩ := List.mem_map.mp hsub
    exact subFlags_none_priority topic
  cases op
  case subscribe su topic => exact .inr (hnone [topic])
  case subscribeFlags su topic flags =>
    by_cases hin : su ∈ (entriesAt s.topicMap (cutFlags topic)).map SubscriberList.su
    · left
      rw [step, psSubscribeFlags_listed hok flags hin] at hs
      cases hs
      rfl
    · right
      intro sub hsub
      rw [List.mem_singleton.mp hsub]
      exact hp hin
  case subscribeMany su subs => exact .inr (hnone (subs.getD []))
  case newSubscriber n subs => exact .inr (hnone (subs.getD []))
  case call msg timeout => exact .inr (hnone [callTopic (s.uuidCtr + 1)])
  case waitOne topic timeout => exact .inr (hnone [topic])
  all_goals exact .inr fun sub hsub => absurd hsub List.not_mem_nil

theorem Bus.PrioritiesOk.step (h : s.PrioritiesOk) (hok : s.Ok) (hp : PriorityOk s op)
    (hs : step s op = some (r, s')) : s'.PrioritiesOk := by
  rcases requested_priority hok hp hs with rfl | hreq
  · exact h
  · intro name sl hsl
    rcases step_entries hok hs name sl hsl with hold | ⟨sub, hsub, -, rfl⟩
    · exact h name sl hold
    · have hlt := hreq sub hsub
      simpa [requestedEntry] using hlt

/-- So are those of the entries that a publish visits. -/
theorem Bus.PrioritiesOk.route (h : s.PrioritiesOk) (m : PsMsg) (topic : Str) :
    ∀ e ∈ route s.topicMap m topic, e.2.priority.toUInt8.toNat < Bucket.PRIORITIES := by
  intro e he
  obtain ⟨name, -, hentry⟩ := List.mem_flatMap.mp he
  obtain ⟨sl, hsl, rfl⟩ := List.mem_map.mp hentry
  exact h name sl hsl

end Requests

namespace Client

/-- A run with priorities of one digit. -/
theorem accounted_priorities {h : List Label} {c : Client Q}
    (hr : Run (fun c e c' => c.step e.1 = some (e.2, c') ∧ PriorityOk c.bus e.1) Client.start h c) :
    c.Accounted ∧ c.bus.PrioritiesOk := by
  refine hr.invariant (P := fun c : Client Q => c.Accounted ∧ c.bus.PrioritiesOk)
    ⟨.start, fun name sl hsl => ?_⟩ fun c e c' hc hs => ?_
  · have hnil : entriesAt (Client.start : Client Q).bus.topicMap name = [] := rfl
    rw [hnil] at hsl
    cases hsl
  · exact ⟨hc.1.step hs.1, hc.2.step hc.1.ok hs.2 (step_eq_some hs.1).1⟩

end Client

end PubSub
