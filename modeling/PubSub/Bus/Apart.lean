import PubSub.Bus.Api

/-! What the calls on one subscriber leave of everything that another one can see:
the sticky messages, the content of the messages, the other's record and its
entries. Topics may come and go; an entry of the other keeps its topic. -/

namespace PubSub

open Lib Bus

variable {Q : Type → Type} [PsQueue Q] [LawfulPsQueue Q]

/-- The entry of `x` at a topic, if there is one. -/
def entriesTo (x : SubId) (topicMap : Cells TopicMap) (name : Str) : List SubscriberList :=
  (entriesAt topicMap name).filter fun sl => sl.su = x

/-- A step that changes nothing that all subscribers share. -/
structure Calm (s s' : Bus Q) : Prop where
  sticky : stickyAt s'.topicMap = stickyAt s.topicMap
  content : s.messages.SameContent s'.messages
  uuidCtr : s'.uuidCtr = s.uuidCtr

/-- A step that changes nothing that the subscriber `x` has either. -/
structure Apart (x : SubId) (s s' : Bus Q) : Prop extends Calm s s' where
  record : s'.subscribers.get x = s.subscribers.get x
  entries : ∀ name, entriesTo x s'.topicMap name = entriesTo x s.topicMap name

section Entries
variable {x su : SubId} {a b : Cells TopicMap}

theorem filter_others (hx : x ≠ su) (sls : List SubscriberList) :
    (others su sls).filter (fun sl => sl.su = x) = sls.filter fun sl => sl.su = x := by
  rw [others, List.filter_filter]
  apply List.filter_congr
  intro sl _
  by_cases h : sl.su = x
  · simp [h, hx]
  · simp [h]

theorem entriesTo_of_others (hx : x ≠ su) {name : Str}
    (h : others su (entriesAt b name) = others su (entriesAt a name)) :
    entriesTo x b name = entriesTo x a name := by
  rw [entriesTo, ← filter_others hx, h, filter_others hx]
  rfl

theorem entriesTo_of_removed (hx : x ≠ su) {name : Str}
    (h : entriesAt b name = others su (entriesAt a name)) :
    entriesTo x b name = entriesTo x a name := by
  rw [entriesTo, h, filter_others hx]
  rfl

theorem entriesTo_congr (h : entriesAt b = entriesAt a) (x : SubId) (name : Str) :
    entriesTo x b name = entriesTo x a name := by
  rw [entriesTo, h]
  rfl

theorem mem_su_iff_entriesTo (x : SubId) (T : Cells TopicMap) (name : Str) :
    x ∈ (entriesAt T name).map SubscriberList.su ↔ entriesTo x T name ≠ [] := by
  rw [entriesTo, Ne, List.filter_eq_nil_iff, List.mem_map]
  simp

theorem entriesTo_dead {s : Bus Q} (hok : s.Ok) (hdead : s.subscribers.get x = none) (name : Str) :
    entriesTo x s.topicMap name = [] := by
  by_contra hne
  exact not_listed_of_dead hok hdead ((mem_su_iff_entriesTo x s.topicMap name).mpr hne)

end Entries

theorem Calm.refl (s : Bus Q) : Calm s s := ⟨rfl, .refl _, rfl⟩

theorem Calm.trans {a b c : Bus Q} (h₁ : Calm a b) (h₂ : Calm b c) : Calm a c where
  sticky := h₂.sticky.trans h₁.sticky
  content := h₁.content.trans h₂.content
  uuidCtr := h₂.uuidCtr.trans h₁.uuidCtr

theorem Bus.Quiet.calm {s s' : Bus Q} (h : Quiet s s') : Calm s s' := ⟨h.sticky, h.content, h.uuidCtr⟩

theorem Bus.SameShape.calm {s s' : Bus Q} (h : s.SameShape s') : Calm s s' :=
  ⟨by rw [h.topicMap], h.content, h.uuidCtr⟩

namespace Apart
variable {x su : SubId} {s s' : Bus Q}

theorem refl (x : SubId) (s : Bus Q) : Apart x s s := ⟨.refl s, rfl, fun _ => rfl⟩

theorem trans {a b c : Bus Q} (h₁ : Apart x a b) (h₂ : Apart x b c) : Apart x a c where
  toCalm := h₁.toCalm.trans h₂.toCalm
  record := h₂.record.trans h₁.record
  entries name := (h₂.entries name).trans (h₁.entries name)

/-- A change of the messages' counters, or of the record of one subscriber. -/
theorem of_sameShape (h : s.SameShape s') (hget : s'.subscribers.get x = s.subscribers.get x) :
    Apart x s s' := by
  refine ⟨h.calm, hget, fun name => ?_⟩
  rw [h.topicMap]

/-- A calm step leaves nothing of a subscriber that lives neither before nor after. -/
theorem of_dead (hok : s.Ok) (hok' : s'.Ok) (hc : Calm s s') (hdead : s.subscribers.get x = none)
    (hdead' : s'.subscribers.get x = none) : Apart x s s' := by
  refine ⟨hc, by rw [hdead, hdead'], fun name => ?_⟩
  rw [entriesTo_dead hok hdead, entriesTo_dead hok' hdead']

end Apart

section Calls
variable {x su : SubId} {s s' : Bus Q} {n : ℕ} {r : ℤ}

theorem Bus.Pushes.apart {ps : List Push} (h : s.Pushes ps s') (hx : ∀ p ∈ ps, x ≠ p.su) :
    Apart x s s' := by
  refine .of_sameShape h.sameShape ?_
  induction h with
  | nil => rfl
  | @snoc ps t u p _ hp ih =>
    rw [hp.get_other (hx p (by simp)), ih fun p' hp' => hx p' (List.mem_append_left _ hp')]

theorem psGet_apart (hx : x ≠ su) {timeout : Int64} {msg : Option MsgId}
    (h : psGet s su timeout = some (msg, s')) : Apart x s s' := by
  have hshape := psGet_sameShape h
  obtain ⟨S, q, -, -, rfl⟩ := psGet_eq_some.mp h
  exact .of_sameShape hshape (Cells.get_modify_of_ne _ _ hx)

theorem psFlush_apart (hx : x ≠ su) (h : psFlush s su = some (n, s')) : Apart x s s' := by
  obtain ⟨S, q, ms, hS, hf⟩ := psFlush_flushed h
  have hshape := hf.sameShape hS
  obtain rfl := hf.state
  exact .of_sameShape hshape (Cells.get_modify_of_ne _ _ hx)

theorem psOverflow_apart (hx : x ≠ su) (h : psOverflow s su = some (r, s')) : Apart x s s' := by
  obtain ⟨S, hS, -, rfl⟩ := psOverflow_eq_some h
  exact .of_sameShape (modifySubscriber_sameShape hS rfl) (Cells.get_modify_of_ne _ _ hx)

theorem psSubscribeFlags_apart (hx : x ≠ su) (hok : s.Ok) {topic : Str} {pflags : Option PsSubFlags}
    (h : psSubscribeFlags s su topic pflags = some (r, s')) : Apart x s s' := by
  rcases psSubscribeFlags_cases hok h with ⟨-, -, rfl⟩ | ⟨-, s₁, ps, hsub⟩
  · exact .refl x _
  · have hfor : ∀ p ∈ ps, x ≠ p.su := by
      intro p hp
      have hreq := List.mem_map_of_mem (f := Push.request) hp
      rw [hsub.requests] at hreq
      obtain ⟨msg, -, heq⟩ := List.mem_map.mp hreq
      simp only [Push.request, Prod.mk.injEq] at heq
      rw [← heq.1]
      exact hx
    obtain ⟨S, tm, hS, hsubs⟩ := hsub.subscribers
    obtain ⟨i, hedit⟩ := hsub.edit
    have hfirst : Apart x s s₁ := by
      refine ⟨hsub.quiet.calm, ?_, fun name => ?_⟩
      · rw [hsubs, Cells.get_modify_of_ne _ _ hx]
      · apply entriesTo_of_others hx
        rw [hedit.entriesAt, Function.update_apply]
        split
        case isTrue hname =>
          rw [hname]
          exact others_snoc rfl
        case isFalse => rfl
    exact hfirst.trans (hsub.pushes.apart hfor)

theorem psUnsubscribe_apart (hx : x ≠ su) (hok : s.Ok) {topic : Str}
    (h : psUnsubscribe s su topic = some (r, s')) : Apart x s s' := by
  rcases psUnsubscribe_cases hok h with ⟨-, -, rfl⟩ | ⟨-, -, S, tm, hS, -, hsubs, hedit, -, hq⟩
  · exact .refl x _
  · refine ⟨hq.calm, ?_, fun name => ?_⟩
    · rw [hsubs, Cells.get_modify_of_ne _ _ hx]
    · apply entriesTo_of_others hx
      rw [hedit.entriesAt, Function.update_apply]
      split
      case isTrue hname =>
        rw [hname]
        exact others_without su _
      case isFalse => rfl

theorem psSubscribeMany_apart (hx : x ≠ su) (hok : s.Ok) {subs : Option (List Str)}
    (h : psSubscribeMany s su subs = some (n, s')) : Apart x s s' :=
  psSubscribeMany_rule (fun s _ => .refl x s) (fun _ _ _ => Apart.trans)
    (fun _ _ _ _ hok h => psSubscribeFlags_apart hx hok h) hok h

theorem psUnsubscribeMany_apart (hx : x ≠ su) (hok : s.Ok) {subs : Option (List Str)}
    (h : psUnsubscribeMany s su subs = some (n, s')) : Apart x s s' :=
  psUnsubscribeMany_rule (fun s _ => .refl x s) (fun _ _ _ => Apart.trans)
    (fun _ _ _ _ hok h => psUnsubscribe_apart hx hok h) hok h

theorem psUnsubscribeAll_apart (hx : x ≠ su) (hok : s.Ok)
    (h : psUnsubscribeAll s su = some (n, s')) : Apart x s s' := by
  obtain ⟨S, T, hS, -, rfl, -, hentries, hq⟩ := psUnsubscribeAll_eq_some hok h
  exact ⟨hq.calm, Cells.get_modify_of_ne _ _ hx, fun name => entriesTo_of_removed hx (hentries name)⟩

theorem psNewSubscriber_apart (hx : x ≠ s.subscribers.next) (hok : s.Ok) {queueSize : ℕ}
    {subs : Option (List Str)} (h : psNewSubscriber s queueSize subs = some (su, s')) :
    Apart x s s' := by
  obtain ⟨rfl, n, s₁, h₁, rfl⟩ := psNewSubscriber_eq_some h
  have hq := addSubscriber_quiet hok queueSize
  have hadd : Apart x s (addSubscriber s queueSize) := by
    refine ⟨hq.calm, ?_, fun _ => rfl⟩
    rw [addSubscriber, Cells.get_alloc, if_neg hx]
  have hmany := hadd.trans (psSubscribeMany_apart hx hq.ok h₁)
  exact ⟨⟨hmany.sticky, hmany.content, hmany.uuidCtr⟩, hmany.record, hmany.entries⟩

theorem psFreeSubscriber_apart (hx : x ≠ su) (hok : s.Ok) (h : psFreeSubscriber s su = some s') :
    Apart x s s' := by
  have hq := psFreeSubscriber_quiet hok h
  obtain ⟨s₂, S, -, -, -, -, -, -, hother, hentries, rfl⟩ := psFreeSubscriber_eq_some hok h
  refine ⟨hq.calm, ?_, fun name => entriesTo_of_removed hx (hentries name)⟩
  rw [Cells.get_free, if_neg hx, hother x hx]

/-- A freed subscriber does not live. -/
theorem psFreeSubscriber_dead (hok : s.Ok) (h : psFreeSubscriber s su = some s') :
    s'.subscribers.get su = none := by
  obtain ⟨s₂, S, -, -, -, -, -, -, -, -, rfl⟩ := psFreeSubscriber_eq_some hok h
  rw [Cells.get_free, if_pos rfl]

/-- The temporary subscriber of `ps_wait_one` is none that existed. -/
theorem psWaitOne_apart (x : SubId) (hok : s.Ok) {topic : Str} {timeout : Int64}
    {ret : Option MsgId} (h : psWaitOne s topic timeout = some (ret, s')) : Apart x s s' := by
  obtain ⟨su, s₁, s₂, hnew, hget, hfree⟩ := psWaitOne_eq_some h
  obtain ⟨rfl, -⟩ := psNewSubscriber_eq_some hnew
  have hq := psNewSubscriber_quiet hok hnew
  have hok₂ := (psGet_ok hq.ok hget).1
  have hq₂ := psFreeSubscriber_quiet hok₂ hfree
  by_cases hx : x = s.subscribers.next
  · rw [hx]
    have hcalm : Calm s s' := (hq.calm.trans (psGet_sameShape hget).calm).trans hq₂.calm
    exact .of_dead hok hq₂.ok hcalm (Cells.get_next _) (psFreeSubscriber_dead hok₂ hfree)
  · exact ((psNewSubscriber_apart hx hok hnew).trans (psGet_apart hx hget)).trans
      (psFreeSubscriber_apart hx hok₂ hfree)

end Calls

end PubSub
