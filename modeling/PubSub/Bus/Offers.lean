import PubSub.Bus.Pushes
import PubSub.Bus.Publish

/-! The offers of one message to a list of subscriptions, in terms of the queues
alone, and the loop of `ps_publish` over one topic as such a list of offers. -/

namespace PubSub

open Lib

variable {Q : Type → Type} [PsQueue Q] [LawfulPsQueue Q]

/-- An offer that was made, and the queue's answer. -/
structure Attempt where
  via : Str
  sl : SubscriberList
  ret : QueueRet
  deriving DecidableEq

def Attempt.push (msg : MsgId) (a : Attempt) : Push :=
  ⟨a.sl.su, a.via, msg, a.sl.priority.toUInt8, a.ret⟩

/-- The attempts that `ps_publish` counts. -/
def Attempt.counted (a : Attempt) : Bool := a.ret = .ok && !a.sl.hidden

abbrev Queues (Q : Type → Type) [PsQueue Q] [LawfulPsQueue Q] :=
  SubId → Option (IdleQueue Q MsgId)

/-- A subscription is offered the message with its own priority, unless it is an
`on_empty` one and messages wait. -/
def offer (msg : MsgId) (qs : Queues Q) (e : Str × SubscriberList) :
    Option (List Attempt × Queues Q) := do
  let q ← qs e.2.su
  if e.2.onEmpty && q.waiting ≠ 0 then some ([], qs)
  else do
    let (ret, _, q) ← q.push msg e.2.priority.toUInt8
    some ([⟨e.1, e.2, ret⟩], Function.update qs e.2.su (some q))

/-- One offer to each subscription, in order. -/
def offers (msg : MsgId) : List (Str × SubscriberList) → Queues Q → Option (List Attempt × Queues Q)
  | [], qs => some ([], qs)
  | e :: es, qs => do
    let (as, qs) ← offer msg qs e
    let (bs, qs) ← offers msg es qs
    some (as ++ bs, qs)

/-- The subscriptions to the topics `names`, topic by topic. -/
def subscriptionsAt (topicMap : Cells TopicMap) (names : List Str) : List (Str × SubscriberList) :=
  names.flatMap fun name => (entriesAt topicMap name).map (name, ·)

section Offers
variable {msg : MsgId} {qs qs' qs'' : Queues Q} {as bs : List Attempt}
  {es fs : List (Str × SubscriberList)}

theorem offer_skip {e : Str × SubscriberList} {q : IdleQueue Q MsgId} (hq : qs e.2.su = some q)
    (hskip : (e.2.onEmpty && q.waiting ≠ 0) = true) : offer msg qs e = some ([], qs) := by
  rw [offer, hq, Option.bind_eq_bind, Option.bind_some, if_pos hskip]

theorem offer_push {e : Str × SubscriberList} {q q' : IdleQueue Q MsgId} {ret : QueueRet}
    {evicted : Option MsgId} (hq : qs e.2.su = some q)
    (hskip : ¬ (e.2.onEmpty && q.waiting ≠ 0) = true)
    (hp : q.push msg e.2.priority.toUInt8 = some (ret, evicted, q')) :
    offer msg qs e = some ([⟨e.1, e.2, ret⟩], Function.update qs e.2.su (some q')) := by
  rw [offer, hq, Option.bind_eq_bind, Option.bind_some, if_neg hskip, hp]
  rfl

theorem offer_cases {e : Str × SubscriberList} (h : offer msg qs e = some (as, qs')) :
    ∃ q, qs e.2.su = some q ∧
      (((e.2.onEmpty && q.waiting ≠ 0) = true ∧ as = [] ∧ qs' = qs) ∨
      (¬ (e.2.onEmpty && q.waiting ≠ 0) = true ∧ ∃ ret evicted q',
        q.push msg e.2.priority.toUInt8 = some (ret, evicted, q') ∧ as = [⟨e.1, e.2, ret⟩] ∧
        qs' = Function.update qs e.2.su (some q'))) := by
  simp only [offer, Option.bind_eq_bind, Option.bind_eq_some_iff] at h
  obtain ⟨q, hq, h⟩ := h
  refine ⟨q, hq, ?_⟩
  split at h
  case isTrue hskip =>
    cases h
    exact .inl ⟨hskip, rfl, rfl⟩
  case isFalse hskip =>
    obtain ⟨⟨ret, evicted, q'⟩, hp, h⟩ := Option.bind_eq_some_iff.mp h
    cases h
    exact .inr ⟨hskip, ret, evicted, q', hp, rfl, rfl⟩

theorem offers_cons {e : Str × SubscriberList} (h₁ : offer msg qs e = some (as, qs'))
    (h₂ : offers msg es qs' = some (bs, qs'')) :
    offers msg (e :: es) qs = some (as ++ bs, qs'') := by
  simp [offers, h₁, h₂]

theorem offers_cons_eq_some {e : Str × SubscriberList} {cs : List Attempt}
    (h : offers msg (e :: es) qs = some (cs, qs'')) : ∃ as bs qs',
      offer msg qs e = some (as, qs') ∧ offers msg es qs' = some (bs, qs'') ∧ cs = as ++ bs := by
  simp only [offers, Option.bind_eq_bind, Option.bind_eq_some_iff] at h
  obtain ⟨⟨as, qs'⟩, ho, ⟨bs, qs₂⟩, hos, heq⟩ := h
  cases heq
  exact ⟨as, bs, qs', ho, hos, rfl⟩

theorem offers_append (h₁ : offers msg es qs = some (as, qs'))
    (h₂ : offers msg fs qs' = some (bs, qs'')) :
    offers msg (es ++ fs) qs = some (as ++ bs, qs'') := by
  induction es generalizing qs as with
  | nil =>
    cases h₁
    exact h₂
  | cons e es ih =>
    obtain ⟨as₁, as₂, qs₁, ho, hos, rfl⟩ := offers_cons_eq_some h₁
    rw [List.append_assoc]
    exact offers_cons ho (ih hos)

theorem length_offers_le (h : offers msg es qs = some (as, qs')) : as.length ≤ es.length := by
  induction es generalizing qs as with
  | nil =>
    cases h
    exact Nat.le_refl 0
  | cons e es ih =>
    obtain ⟨as₁, as₂, qs₁, ho, hos, rfl⟩ := offers_cons_eq_some h
    have hle : as₁.length ≤ 1 := by
      obtain ⟨q, -, ⟨-, rfl, -⟩ | ⟨-, ret, evicted, q', -, rfl, -⟩⟩ := offer_cases ho
      · exact Nat.zero_le 1
      · exact Nat.le_refl 1
    have := ih hos
    simp only [List.length_append, List.length_cons]
    omega

/-- Every attempt is made for one of the subscriptions. -/
theorem offers_mem (h : offers msg es qs = some (as, qs')) {a : Attempt} (ha : a ∈ as) :
    (a.via, a.sl) ∈ es := by
  induction es generalizing qs as with
  | nil =>
    cases h
    cases ha
  | cons e es ih =>
    obtain ⟨as₁, as₂, qs₁, ho, hos, rfl⟩ := offers_cons_eq_some h
    rcases List.mem_append.mp ha with ha | ha
    · obtain ⟨q, -, ⟨-, rfl, -⟩ | ⟨-, ret, evicted, q', -, rfl, -⟩⟩ := offer_cases ho
      · cases ha
      · rw [List.mem_singleton.mp ha]
        exact List.mem_cons_self
    · exact List.mem_cons_of_mem _ (ih hos ha)

/-- A subscriber that no subscription names keeps its queue. -/
theorem offers_other (h : offers msg es qs = some (as, qs')) {su : SubId}
    (hsu : ∀ e ∈ es, e.2.su ≠ su) : qs' su = qs su := by
  induction es generalizing qs as with
  | nil =>
    cases h
    rfl
  | cons e es ih =>
    obtain ⟨as₁, as₂, qs₁, ho, hos, -⟩ := offers_cons_eq_some h
    rw [ih hos fun e he => hsu e (List.mem_cons_of_mem _ he)]
    obtain ⟨q, -, ⟨-, -, rfl⟩ | ⟨-, ret, evicted, q', -, -, rfl⟩⟩ := offer_cases ho
    · rfl
    · exact Function.update_of_ne (hsu e List.mem_cons_self).symm _ _

end Offers

section Deliver
variable {s s' : Bus Q} {msg : MsgId} {via : Str} {held : MsgId → ℕ}

theorem psWaiting_eq_some {su : SubId} {n : ℕ} :
    psWaiting s su = some n ↔ ∃ q, queuesOf s.subscribers su = some q ∧ q.waiting = n := by
  simp only [psWaiting, Option.bind_eq_bind, Option.bind_eq_some_iff, Option.some.injEq,
    queuesOf_eq_some]
  constructor
  · rintro ⟨S, hS, rfl⟩
    exact ⟨S.q, ⟨S, hS, rfl⟩, rfl⟩
  · rintro ⟨q, ⟨S, hS, rfl⟩, rfl⟩
    exact ⟨S, hS, rfl⟩

/-- The loop over one topic's entries makes one offer to each. -/
theorem deliver_offers {sls : List SubscriberList} {ret n : ℕ}
    (h : deliver msg via sls ret s = some (n, s')) :
    ∃ as, offers msg (sls.map (via, ·)) (queuesOf s.subscribers) =
        some (as, queuesOf s'.subscribers) ∧
      s.Pushes (as.map (Attempt.push msg)) s' ∧ n = ret + as.countP Attempt.counted := by
  induction sls generalizing ret s with
  | nil =>
    cases h
    exact ⟨[], rfl, .nil, rfl⟩
  | cons sl sls ih =>
    simp only [deliver, Option.bind_eq_bind, Option.bind_eq_some_iff] at h
    obtain ⟨w, hw, h⟩ := h
    obtain ⟨q, hq, rfl⟩ := psWaiting_eq_some.mp hw
    split at h
    case isTrue hskip =>
      obtain ⟨as, hos, hps, hn⟩ := ih h
      exact ⟨as, offers_cons (offer_skip hq hskip) hos, hps, hn⟩
    case isFalse hskip =>
      obtain ⟨⟨r, s₁⟩, hpush, h⟩ := Option.bind_eq_some_iff.mp h
      obtain ⟨a, hr, hstep⟩ := pushSubscriberQueue_iff.mp hpush
      obtain ⟨as, hos, hps, hn⟩ := ih h
      obtain ⟨q₀, evicted, q', hq₀, hqp, hqs⟩ := hstep.queues
      have hqq : q₀ = q := Option.some.inj (hq₀.symm.trans hq)
      subst hqq
      refine ⟨⟨via, sl, a⟩ :: as, ?_, hps.cons hstep, ?_⟩
      · rw [hqs] at hos
        exact offers_cons (offer_push (e := (via, sl)) hq hskip hqp) hos
      · have hcounted : (decide (r = 0) && !sl.hidden) = Attempt.counted ⟨via, sl, a⟩ := by
          rw [hr]
          cases a <;> rfl
        simp only [hn, List.countP_cons, hcounted]
        split <;> omega

/-- The loop returns when its subscribers live and the counters have room. -/
theorem deliver_exists {sls : List SubscriberList} (ret : ℕ) (hr : s.Ready held msg sls.length)
    (hsls : ∀ sl ∈ sls, (subsOf s.subscribers sl.su).isSome ∧
      sl.priority.toUInt8.toNat < 10) :
    ∃ n s', deliver msg via sls ret s = some (n, s') := by
  induction sls generalizing ret s with
  | nil => exact ⟨ret, s, rfl⟩
  | cons sl sls ih =>
    obtain ⟨hsu, hp⟩ := hsls sl List.mem_cons_self
    have hrest : ∀ s₁ : Bus Q, subsOf s₁.subscribers = subsOf s.subscribers →
        ∀ sl ∈ sls, (subsOf s₁.subscribers sl.su).isSome ∧ sl.priority.toUInt8.toNat < 10 := by
      intro s₁ hs₁ sl hsl
      rw [hs₁]
      exact hsls sl (List.mem_cons_of_mem _ hsl)
    have hwait : ∃ w, psWaiting s sl.su = some w := by
      rw [subsOf, Option.isSome_map] at hsu
      obtain ⟨S, hS⟩ := Option.isSome_iff_exists.mp hsu
      exact ⟨_, psWaiting_eq_some.mpr ⟨S.q, queuesOf_eq_some.mpr ⟨S, hS, rfl⟩, rfl⟩⟩
    obtain ⟨w, hw⟩ := hwait
    simp only [deliver, hw, Option.bind_eq_bind, Option.bind_some]
    split
    case isTrue =>
      exact ih ret (hr.mono (Nat.le_succ _)) (hrest s rfl)
    case isFalse =>
      obtain ⟨a, s₁, hstep⟩ := PushStep.exists_of_ready via hr hsu hp
      rw [pushSubscriberQueue_iff.mpr ⟨a, rfl, hstep⟩, Option.bind_some]
      exact ih _ (hstep.ready hr) (hrest s₁ hstep.sameShape.subsOf)

end Deliver

end PubSub
