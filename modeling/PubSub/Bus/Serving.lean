import PubSub.Bus.Api

/-! What each call does to the account of a subscriber: the pushes attempted, what
was handed out or reported, what waits and what the overflow counter holds. -/

namespace PubSub

open Lib Bus

variable {Q : Type → Type} [PsQueue Q] [LawfulPsQueue Q]

/-- The messages that wait and the losses not yet reported. -/
def PsSubscriber.balance (S : PsSubscriber Q) : ℕ := S.q.waiting + S.overflow.toNat

/-- The number of pushes to a subscriber. -/
def pushesTo (su : SubId) (ps : List Push) : ℕ := ps.countP fun p => p.su = su

/-- The number of pushes to a subscriber that lost a message. -/
def lossesTo (su : SubId) (ps : List Push) : ℕ := ps.countP fun p => p.su = su ∧ p.ret ≠ .ok

/-- An amount for one subscriber. -/
def toSub (su : SubId) (n : ℤ) (x : SubId) : ℤ := if x = su then n else 0

@[simp] theorem toSub_zero (su : SubId) : toSub su 0 = 0 := by
  funext x
  simp [toSub]

@[simp] theorem pushesTo_nil (su : SubId) : pushesTo su [] = 0 := rfl

@[simp] theorem pushesTo_append (su : SubId) (ps qs : List Push) :
    pushesTo su (ps ++ qs) = pushesTo su ps + pushesTo su qs := List.countP_append

theorem pushesTo_eq_zero {su : SubId} {ps : List Push} (h : ∀ p ∈ ps, p.su ≠ su) :
    pushesTo su ps = 0 := by
  rw [pushesTo, List.countP_eq_zero]
  intro p hp
  simpa using h p hp

theorem pushesTo_eq_length {su : SubId} {ps : List Push} (h : ∀ p ∈ ps, p.su = su) :
    pushesTo su ps = ps.length := by
  rw [pushesTo, List.countP_eq_length]
  intro p hp
  simpa using h p hp

@[simp] theorem lossesTo_append (su : SubId) (ps qs : List Push) :
    lossesTo su (ps ++ qs) = lossesTo su ps + lossesTo su qs := List.countP_append

theorem lossesTo_le (su : SubId) (ps : List Push) : lossesTo su ps ≤ pushesTo su ps := by
  apply List.countP_mono_left
  intro p _ hp
  rw [decide_eq_true_eq] at hp ⊢
  exact hp.1

theorem lossesTo_eq_zero {su : SubId} {ps : List Push} (h : ∀ p ∈ ps, p.su ≠ su) :
    lossesTo su ps = 0 := by
  have hle := lossesTo_le su ps
  rw [pushesTo_eq_zero h] at hle
  omega

/-- The account of one subscriber over `n` pushes with `losses` losses: while its counter
stays below `2^31`, what waits and what is counted grows by the pushes, less what is handed
out or reported. -/
structure Settled (S S' : PsSubscriber Q) (n losses : ℕ) (out : ℤ) : Prop where
  counter : S'.overflow.toNat ≤ S.overflow.toNat + losses
  kept : S.overflow.toNat + losses < 2 ^ 31 →
    0 ≤ out ∧ (S'.balance : ℤ) + out = S.balance + n

namespace Settled
variable {S S' S'' : PsSubscriber Q} {j k l m : ℕ} {out out' : ℤ}

theorem refl (S : PsSubscriber Q) : Settled S S 0 0 0 := ⟨Nat.le_refl _, fun _ => by simp⟩

theorem of_same (hq : S'.q = S.q) (ho : S'.overflow = S.overflow) : Settled S S' 0 0 0 := by
  refine ⟨by rw [ho]; exact Nat.le_refl _, fun _ => ?_⟩
  rw [PsSubscriber.balance, hq, ho]
  simp [PsSubscriber.balance]

theorem trans (h₁ : Settled S S' j l out) (h₂ : Settled S' S'' k m out') :
    Settled S S'' (j + k) (l + m) (out + out') := by
  have hcounter := h₁.counter
  refine ⟨?_, fun hlt => ?_⟩
  · have := h₂.counter
    omega
  · obtain ⟨hout, hb⟩ := h₁.kept (by omega)
    obtain ⟨hout', hb'⟩ := h₂.kept (by omega)
    omega

end Settled

/-- The pushes `ps` were made and `out` was handed out or reported. The accounts of the
subscribers that live before and after are settled. -/
structure Serves (s s' : Bus Q) (ps : List Push) (out : SubId → ℤ) : Prop where
  pushes : s'.pushes = s.pushes ++ ps
  next : s.subscribers.next ≤ s'.subscribers.next
  known : ∀ p ∈ ps, p.su < s'.subscribers.next
  keep : ∀ su, su < s.subscribers.next → (s'.subscribers.get su).isSome →
    (s.subscribers.get su).isSome
  capacity : ∀ su S S', s.subscribers.get su = some S → s'.subscribers.get su = some S' →
    S'.q.capacity = S.q.capacity
  account : ∀ su S S', s.subscribers.get su = some S → s'.subscribers.get su = some S' →
    Settled S S' (pushesTo su ps) (lossesTo su ps) (out su)
  items : ∀ su S', s'.subscribers.get su = some S' → ∀ x ∈ S'.q.items,
    (∃ S, s.subscribers.get su = some S ∧ x ∈ S.q.items) ∨ ∃ p ∈ ps, p.su = su ∧ p.msg = x

namespace Serves
variable {s s' a b c : Bus Q} {ps qs : List Push} {m n : SubId → ℤ} {su : SubId}
  {S S' : PsSubscriber Q}

/-- Subscribers are not brought back, so what lives at both ends lives in between. -/
theorem trans (h₁ : Serves a b ps m) (h₂ : Serves b c qs n) : Serves a c (ps ++ qs) (m + n) := by
  have hmid : ∀ su S S'', a.subscribers.get su = some S → c.subscribers.get su = some S'' →
      ∃ S', b.subscribers.get su = some S' := by
    intro su S S'' hS hS''
    have hsu := Nat.lt_of_lt_of_le (Cells.lt_next hS) h₁.next
    exact Option.isSome_iff_exists.mp (h₂.keep su hsu (by rw [hS'']; rfl))
  refine ⟨?_, h₁.next.trans h₂.next, fun p hp => ?_, fun su hsu hc => ?_, fun su S S'' hS hS'' => ?_,
    fun su S S'' hS hS'' => ?_, fun su S'' hS'' x hx => ?_⟩
  · rw [h₂.pushes, h₁.pushes, List.append_assoc]
  · rcases List.mem_append.mp hp with hp | hp
    · exact Nat.lt_of_lt_of_le (h₁.known p hp) h₂.next
    · exact h₂.known p hp
  · exact h₁.keep su hsu (h₂.keep su (Nat.lt_of_lt_of_le hsu h₁.next) hc)
  · obtain ⟨S', hS'⟩ := hmid su S S'' hS hS''
    exact (h₂.capacity su S' S'' hS' hS'').trans (h₁.capacity su S S' hS hS')
  · obtain ⟨S', hS'⟩ := hmid su S S'' hS hS''
    rw [pushesTo_append, lossesTo_append]
    exact (h₁.account su S S' hS hS').trans (h₂.account su S' S'' hS' hS'')
  · rcases h₂.items su S'' hS'' x hx with ⟨S', hS', hx'⟩ | ⟨p, hp, hpx⟩
    · rcases h₁.items su S' hS' x hx' with hold | ⟨p, hp, hpx⟩
      · exact .inl hold
      · exact .inr ⟨p, List.mem_append_left _ hp, hpx⟩
    · exact .inr ⟨p, List.mem_append_right _ hp, hpx⟩

/-- A change of one subscriber. -/
theorem of_modify {k : ℤ} {N : PsSubscriber Q} (hS : s.subscribers.get su = some S)
    (hsubs : s'.subscribers = s.subscribers.modify su fun _ => N) (hp : s'.pushes = s.pushes ++ ps)
    (hps : ∀ p ∈ ps, p.su = su) (hcap : N.q.capacity = S.q.capacity)
    (hitems : ∀ x ∈ N.q.items, x ∈ S.q.items ∨ ∃ p ∈ ps, p.msg = x)
    (hb : Settled S N ps.length (lossesTo su ps) k) :
    Serves s s' ps (toSub su k) := by
  have hget : ∀ x, s'.subscribers.get x = if x = su then some N else s.subscribers.get x := by
    intro x
    rw [hsubs, Cells.get_modify]
    split
    case isTrue hx => rw [hx, hS, Option.map_some]
    case isFalse => rfl
  have hcases : ∀ x T T', s.subscribers.get x = some T → s'.subscribers.get x = some T' →
      (x = su ∧ T = S ∧ T' = N) ∨ (x ≠ su ∧ T' = T) := by
    intro x T T' hT hT'
    rw [hget] at hT'
    split at hT'
    case isTrue hx =>
      rw [hx, hS] at hT
      exact .inl ⟨hx, (Option.some.inj hT).symm, (Option.some.inj hT').symm⟩
    case isFalse hx =>
      rw [hT] at hT'
      exact .inr ⟨hx, (Option.some.inj hT').symm⟩
  refine ⟨hp, by rw [hsubs]; exact Nat.le_refl _, fun p hp => ?_, fun x _ hx => ?_,
    fun x T T' hT hT' => ?_, fun x T T' hT hT' => ?_, fun x T' hT' i hi => ?_⟩
  · rw [hps p hp, hsubs, Cells.next_modify]
    exact Cells.lt_next hS
  · rwa [hsubs, sameSubscribers_modify] at hx
  · rcases hcases x T T' hT hT' with ⟨-, rfl, rfl⟩ | ⟨-, rfl⟩
    · exact hcap
    · rfl
  · rcases hcases x T T' hT hT' with ⟨rfl, rfl, rfl⟩ | ⟨hx, rfl⟩
    · rw [pushesTo_eq_length hps, toSub, if_pos rfl]
      exact hb
    · have hother : ∀ p ∈ ps, p.su ≠ x := fun p hp => by
        rw [hps p hp]
        exact Ne.symm hx
      rw [pushesTo_eq_zero hother, lossesTo_eq_zero hother, toSub, if_neg hx]
      exact .refl _
  · have hx := hget x
    split at hx
    case isTrue hsu =>
      rw [hx] at hT'
      cases hT'
      rcases hitems i hi with hold | ⟨p, hp, hpi⟩
      · exact .inl ⟨S, by rw [hsu, hS], hold⟩
      · exact .inr ⟨p, hp, by rw [hps p hp, hsu], hpi⟩
    case isFalse hsu =>
      rw [hx] at hT'
      exact .inl ⟨T', hT', hi⟩

/-- A change that makes no push and leaves every queue and counter, or frees
subscribers. -/
theorem of_get (hp : s'.pushes = s.pushes) (hnext : s'.subscribers.next = s.subscribers.next)
    (hget : ∀ x T', s'.subscribers.get x = some T' → ∃ T, s.subscribers.get x = some T ∧
      T'.q = T.q ∧ T'.overflow = T.overflow) : Serves s s' [] 0 := by
  have hsame : ∀ x T T', s.subscribers.get x = some T → s'.subscribers.get x = some T' →
      T'.q = T.q ∧ T'.overflow = T.overflow := by
    intro x T T' hT hT'
    obtain ⟨T₀, hT₀, hq⟩ := hget x T' hT'
    rw [hT] at hT₀
    cases hT₀
    exact hq
  refine ⟨by rw [hp, List.append_nil], Nat.le_of_eq hnext.symm, fun p hp => (nomatch hp),
    fun x _ hx => ?_, fun x T T' hT hT' => ?_, fun x T T' hT hT' => ?_, fun x T' hT' i hi => ?_⟩
  · obtain ⟨T', hT'⟩ := Option.isSome_iff_exists.mp hx
    obtain ⟨T, hT, -⟩ := hget x T' hT'
    rw [hT]
    rfl
  · rw [(hsame x T T' hT hT').1]
  · obtain ⟨hq, ho⟩ := hsame x T T' hT hT'
    exact .of_same hq ho
  · obtain ⟨T, hT, hq, -⟩ := hget x T' hT'
    exact .inl ⟨T, hT, hq ▸ hi⟩

theorem of_same (hsubs : s'.subscribers = s.subscribers) (hp : s'.pushes = s.pushes) :
    Serves s s' [] 0 :=
  of_get hp (by rw [hsubs]) fun x T hT => ⟨T, by rwa [hsubs] at hT, rfl, rfl⟩

/-- A change of one subscriber that leaves its queue and its counter. -/
theorem of_touch {f : PsSubscriber Q → PsSubscriber Q} (hp : s'.pushes = s.pushes)
    (hsubs : s'.subscribers = s.subscribers.modify su f)
    (hf : ∀ S, s.subscribers.get su = some S → (f S).q = S.q ∧ (f S).overflow = S.overflow) :
    Serves s s' [] 0 := by
  refine .of_get hp (by rw [hsubs]; rfl) fun x T' hT' => ?_
  rw [hsubs, Cells.get_modify] at hT'
  split at hT'
  case isTrue hx =>
    obtain ⟨T, hT, rfl⟩ := Option.map_eq_some_iff.mp hT'
    exact ⟨T, hT, hf T (by rw [← hx, hT])⟩
  case isFalse => exact ⟨T', hT', rfl, rfl⟩

/-- A change to a fixed content. -/
theorem of_touch_const (hp : s'.pushes = s.pushes) (hS : s.subscribers.get su = some S)
    (hsubs : s'.subscribers = s.subscribers.modify su fun _ => S') (hq : S'.q = S.q)
    (ho : S'.overflow = S.overflow) : Serves s s' [] 0 :=
  .of_touch hp hsubs fun T hT => by
    rw [hS] at hT
    cases hT
    exact ⟨hq, ho⟩

/-- Two amounts that differ for subscribers which do not live at both ends only. -/
theorem congr_out (h : Serves s s' ps m) (hmn : ∀ su S S', s.subscribers.get su = some S →
    s'.subscribers.get su = some S' → m su = n su) : Serves s s' ps n := by
  refine ⟨h.pushes, h.next, h.known, h.keep, h.capacity, fun su S S' hS hS' => ?_, h.items⟩
  rw [← hmn su S S' hS hS']
  exact h.account su S S' hS hS'

end Serves

/-! ### Pushes and reads -/

section Queues
variable {s s' : Bus Q} {su : SubId} {n : ℕ}

/-- A push adds a message that waits or a loss. -/
theorem Pushed.length {cap : ℕ} {l l' : List MsgId} {m : MsgId} {ret : QueueRet}
    {evicted : Option MsgId} (h : Pushed cap l m ret evicted l') :
    l'.length = l.length + if ret = .ok then 1 else 0 := by
  cases h with
  | ok _ hp => simpa using hp.length_eq
  | efull => simp
  | eoverflow _ hp => simpa using hp.length_eq

/-- What waits after a push waited before it or is the message pushed. -/
theorem Pushed.mem {cap : ℕ} {l l' : List MsgId} {m : MsgId} {ret : QueueRet}
    {evicted : Option MsgId} (h : Pushed cap l m ret evicted l') {x : MsgId} (hx : x ∈ l') :
    x ∈ l ∨ m = x := by
  cases h with
  | ok _ hp => simpa [or_comm, eq_comm] using hp.mem_iff.mp hx
  | efull => exact .inl hx
  | eoverflow _ hp =>
    simpa [or_comm, eq_comm] using hp.mem_iff.mp (List.mem_cons_of_mem _ hx)

theorem PushStep.serves {p : Push} (h : PushStep s p s') : Serves s s' [p] 0 := by
  obtain ⟨S, evicted, q, ms₁, ms₂, ms₃, hS, hq, -, -, -, rfl⟩ := h
  obtain ⟨hcap, hpushed⟩ := IdleQueue.push_spec hq
  rw [← toSub_zero p.su]
  refine .of_modify (N := { S with
    q := q, overflow := if p.ret = .ok then S.overflow else S.overflow + 1 })
    hS rfl rfl (by simp) hcap (fun x hx => by simpa using hpushed.mem hx) ?_
  have hadd : (S.overflow + 1).toNat = (S.overflow.toNat + 1) % 2 ^ 32 := UInt32.toNat_add _ _
  have hlosses : lossesTo p.su [p] = if p.ret = .ok then 0 else 1 := by
    by_cases hret : p.ret = .ok <;> simp [lossesTo, hret]
  have hlen := hpushed.length
  rw [hlosses]
  constructor
  · dsimp only
    split <;> omega
  · intro hlt
    simp only [PsSubscriber.balance, IdleQueue.waiting_eq, List.length_singleton]
    rw [hlen]
    split
    case isTrue => omega
    case isFalse hret =>
      rw [if_neg hret] at hlt
      omega

theorem Bus.Pushes.serves {ps : List Push} (h : s.Pushes ps s') : Serves s s' ps 0 := by
  induction h with
  | nil => exact .of_same rfl rfl
  | snoc _ hp ih =>
    have := ih.trans hp.serves
    rwa [add_zero] at this

theorem psGet_serves {timeout : Int64} {msg : Option MsgId} (h : psGet s su timeout = some (msg, s')) :
    Serves s s' [] (toSub su (if msg.isSome then 1 else 0)) := by
  obtain ⟨S, q, hS, hq, rfl⟩ := psGet_eq_some.mp h
  rcases IdleQueue.pull_spec hq with ⟨rfl, -, rfl⟩ | ⟨x, rfl, hcap, hx⟩
  · refine .of_modify (N := S) hS rfl (List.append_nil _).symm (by simp) rfl (fun x => .inl) ?_
    exact .refl S
  · refine .of_modify (N := { S with q := q }) hS rfl (List.append_nil _).symm (by simp) hcap
      (fun y hy => .inl (by rw [hx]; exact List.mem_cons_of_mem _ hy))
      ⟨Nat.le_refl _, fun _ => ⟨by simp, ?_⟩⟩
    simp only [PsSubscriber.balance, IdleQueue.waiting_eq, hx, List.length_cons, List.length_nil,
      Option.isSome_some, if_true]
    omega

theorem psFlush_serves (h : psFlush s su = some (n, s')) : Serves s s' [] (toSub su n) := by
  obtain ⟨S, q, ms, hS, hf⟩ := psFlush_flushed h
  refine .of_modify (N := { S with q := q }) hS (by rw [hf.state]) (by rw [hf.state, List.append_nil])
    (by simp) hf.capacity (by simp [hf.empty]) ⟨Nat.le_refl _, fun _ => ⟨by omega, ?_⟩⟩
  simp only [PsSubscriber.balance, IdleQueue.waiting_eq, hf.empty, ← hf.count, List.length_nil]
  omega

/-- A counter below `2^31` is an `int`. -/
theorem toInt32_toInt {x : UInt32} (h : x.toNat < 2 ^ 31) : x.toInt32.toInt = x.toNat := by
  have hlt : 2 * x.toBitVec.toNat < 2 ^ 32 := by
    rw [UInt32.toNat_toBitVec]
    omega
  exact BitVec.toInt_eq_toNat_of_lt hlt

theorem psOverflow_serves {r : ℤ} (h : psOverflow s su = some (r, s')) :
    Serves s s' [] (toSub su r) := by
  obtain ⟨S, hS, rfl, rfl⟩ := psOverflow_eq_some h
  refine .of_modify (N := { S with overflow := 0 }) hS rfl (List.append_nil _).symm (by simp) rfl
    (fun x => .inl) ⟨Nat.zero_le _, fun hlt => ?_⟩
  simp only [PsSubscriber.balance, List.length_nil] at hlt ⊢
  rw [toInt32_toInt (by omega)]
  simp only [UInt32.toNat_zero]
  omega

end Queues

/-! ### The calls -/

section Calls
variable {s s' : Bus Q} {su : SubId} {n : ℕ} {r : ℤ}

theorem psSubscribeFlags_serves {topicOrig : Str} {pflags : Option PsSubFlags} (hok : s.Ok)
    (h : psSubscribeFlags s su topicOrig pflags = some (r, s')) : ∃ ps, Serves s s' ps 0 := by
  rcases psSubscribeFlags_cases hok h with ⟨-, -, rfl⟩ | ⟨-, s₁, ps, hsub⟩
  · exact ⟨[], .of_same rfl rfl⟩
  · obtain ⟨S, tm, hS, hsubs⟩ := hsub.subscribers
    have hfirst : Serves s s₁ [] 0 := .of_touch_const hsub.rest.2.1 hS hsubs rfl rfl
    have := hfirst.trans hsub.pushes.serves
    rw [List.nil_append, add_zero] at this
    exact ⟨ps, this⟩

theorem psUnsubscribe_serves {otopic : Str} (hok : s.Ok) (h : psUnsubscribe s su otopic = some (r, s')) :
    Serves s s' [] 0 := by
  rcases psUnsubscribe_cases hok h with ⟨-, -, rfl⟩ | ⟨-, -, S, tm, hS, -, hsubs, -, heq, -⟩
  · exact .of_same rfl rfl
  · exact .of_touch_const (by rw [heq]) hS hsubs rfl rfl

theorem serves_refl (s : Bus Q) : ∃ ps, Serves s s ps 0 := ⟨[], .of_same rfl rfl⟩

theorem serves_trans {a b c : Bus Q} (h₁ : ∃ ps, Serves a b ps 0) (h₂ : ∃ ps, Serves b c ps 0) :
    ∃ ps, Serves a c ps 0 := by
  obtain ⟨ps, hps⟩ := h₁
  obtain ⟨qs, hqs⟩ := h₂
  have := hps.trans hqs
  rw [add_zero] at this
  exact ⟨ps ++ qs, this⟩

theorem psSubscribeMany_serves {subs : Option (List Str)} (hok : s.Ok)
    (h : psSubscribeMany s su subs = some (n, s')) : ∃ ps, Serves s s' ps 0 :=
  psSubscribeMany_rule (R := fun s s' => ∃ ps, Serves s s' ps 0) (fun s _ => serves_refl s)
    (fun _ _ _ => serves_trans) (fun _ _ _ _ hok h => psSubscribeFlags_serves hok h) hok h

theorem psUnsubscribeMany_serves {subs : Option (List Str)} (hok : s.Ok)
    (h : psUnsubscribeMany s su subs = some (n, s')) : ∃ ps, Serves s s' ps 0 :=
  psUnsubscribeMany_rule (R := fun s s' => ∃ ps, Serves s s' ps 0) (fun s _ => serves_refl s)
    (fun _ _ _ => serves_trans) (fun _ _ _ _ hok h => ⟨[], psUnsubscribe_serves hok h⟩) hok h

theorem psUnsubscribeAll_serves (hok : s.Ok) (h : psUnsubscribeAll s su = some (n, s')) :
    Serves s s' [] 0 := by
  obtain ⟨S, T, hS, -, rfl, -, -, -⟩ := psUnsubscribeAll_eq_some hok h
  exact .of_touch rfl rfl fun S _ => ⟨rfl, rfl⟩

theorem addSubscriber_serves (s : Bus Q) (queueSize : ℕ) :
    Serves s (addSubscriber s queueSize) [] 0 := by
  have hget : ∀ x, x < s.subscribers.next →
      (addSubscriber s queueSize).subscribers.get x = s.subscribers.get x := by
    intro x hx
    rw [addSubscriber, Cells.get_alloc, if_neg (by omega)]
  have hsame : ∀ x T T', s.subscribers.get x = some T →
      (addSubscriber s queueSize).subscribers.get x = some T' → T' = T := by
    intro x T T' hT hT'
    rw [hget x (Cells.lt_next hT), hT] at hT'
    exact (Option.some.inj hT').symm
  refine ⟨(List.append_nil _).symm, Nat.le_succ _, by simp, fun x hx h => ?_,
    fun x T T' hT hT' => ?_, fun x T T' hT hT' => ?_, fun x T' hT' i hi => ?_⟩
  · rwa [hget x hx] at h
  · rw [hsame x T T' hT hT']
  · rw [hsame x T T' hT hT']
    exact .refl T
  · rw [addSubscriber, Cells.get_alloc] at hT'
    split at hT'
    case isTrue =>
      cases hT'
      simp [newSubscriber] at hi
    case isFalse => exact .inl ⟨T', hT', hi⟩

/-- A new subscriber starts with an empty account. -/
theorem psNewSubscriber_serves {queueSize : ℕ} {subs : Option (List Str)} (hok : s.Ok)
    (h : psNewSubscriber s queueSize subs = some (su, s')) : ∃ ps, Serves s s' ps 0 ∧
      su = s.subscribers.next ∧ su < s'.subscribers.next ∧
      ∀ S', s'.subscribers.get su = some S' → S'.q.capacity = queueSize ∧
        S'.overflow.toNat ≤ lossesTo su ps ∧
        (lossesTo su ps < 2 ^ 31 → S'.balance = pushesTo su ps) := by
  obtain ⟨rfl, n, s₁, h₁, rfl⟩ := psNewSubscriber_eq_some h
  obtain ⟨ps, hps⟩ := psSubscribeMany_serves (addSubscriber_quiet hok queueSize).ok h₁
  have hend : Serves s₁ { s₁ with statLiveSubscribers := s₁.statLiveSubscribers + 1 } [] 0 :=
    .of_same rfl rfl
  have hall := (addSubscriber_serves s queueSize).trans (hps.trans hend)
  simp only [List.nil_append, List.append_nil, add_zero] at hall
  have hnew : (addSubscriber s queueSize).subscribers.get s.subscribers.next =
      some (newSubscriber queueSize) := Cells.get_alloc_self _ _
  have hzero : (newSubscriber queueSize : PsSubscriber Q).balance = 0 := by
    simp [PsSubscriber.balance, newSubscriber, IdleQueue.waiting_eq]
  refine ⟨ps, hall, rfl, Nat.lt_of_lt_of_le (Nat.lt_succ_self _) hps.next, fun S' hS' => ?_⟩
  have hcounter : (newSubscriber queueSize : PsSubscriber Q).overflow.toNat = 0 := rfl
  have hsettled := hps.account _ _ S' hnew hS'
  refine ⟨?_, ?_, fun hlt => ?_⟩
  · rw [hps.capacity _ _ S' hnew hS']
    exact IdleQueue.capacity_new queueSize
  · have hle := hsettled.counter
    omega
  · obtain ⟨-, hb⟩ := hsettled.kept (by omega)
    rw [hzero] at hb
    simp only [Pi.zero_apply] at hb
    omega

theorem psFreeSubscriber_serves (hok : s.Ok) (h : psFreeSubscriber s su = some s') :
    Serves s s' [] 0 ∧ s'.subscribers.get su = none := by
  obtain ⟨s₂, S, -, hsame, -, -, -, hpushes, hother, -, rfl⟩ := psFreeSubscriber_eq_some hok h
  constructor
  · refine .of_get hpushes.1 hsame.next fun x T' hT' => ?_
    rw [Cells.get_free] at hT'
    split at hT'
    case isTrue => cases hT'
    case isFalse hx => exact ⟨T', by rwa [← hother x hx], rfl, rfl⟩
  · rw [Cells.get_free, if_pos rfl]

theorem Published.serves {msg : MsgId} {m : PsMsg} {topic : Str} {as : List Attempt}
    {s₀ s₁ : Bus Q} (h : Published s msg n s' m topic as s₀ s₁) :
    Serves s s' (as.map (Attempt.push msg)) 0 := by
  have hfirst : Serves s s₀ [] 0 := by
    obtain ⟨ms₁, ms₂, -, -, rfl⟩ := h.stickyStep
    exact .of_same rfl rfl
  have hlast : Serves s₁ s' [] 0 := by
    obtain ⟨ms, -, rfl⟩ := h.release
    exact .of_same rfl rfl
  have := hfirst.trans (h.pushes.serves.trans hlast)
  simpa only [List.nil_append, List.append_nil, add_zero] using this

/-- The temporary subscriber of a call is gone at its end, with its account. -/
theorem Called.serves {msg : MsgId} {timeout : Int64} {ret : Option MsgId}
    {s₁ s₂ s₃ s₄ : Bus Q} (h : Called s msg timeout ret s' s₁ s₂ s₃ s₄ su n) (hok : s.Ok) :
    ∃ ps, Serves s s' ps 0 := by
  obtain ⟨hok₁, hok₂, hok₃, hok₄, -⟩ := h.oks hok
  have hcounter : Serves s s₁ [] 0 := by
    obtain ⟨ms, -, rfl⟩ := h.counter
    exact .of_same rfl rfl
  have hnext : s₁.subscribers.next = s.subscribers.next := by
    obtain ⟨ms, -, rfl⟩ := h.counter
    rfl
  obtain ⟨ps, hnew, hsu, -, -⟩ := psNewSubscriber_serves hok₁ h.new
  obtain ⟨m₂, topic, as, t₀, t₁, hpub⟩ := psPublish_published hok₂.names hok₂.alive h.publish
  have hget : ∃ k, Serves s₃ s₄ [] (toSub su k) := by
    rcases h.get with ⟨-, -, rfl⟩ | ⟨-, hget⟩
    · exact ⟨0, by rw [toSub_zero]; exact .of_same rfl rfl⟩
    · exact ⟨_, psGet_serves hget⟩
  obtain ⟨k, hget⟩ := hget
  have hall := hcounter.trans (hnew.trans (hpub.serves.trans
    (hget.trans (psFreeSubscriber_serves hok₄ h.free).1)))
  refine ⟨_, hall.congr_out fun x S _ hS _ => ?_⟩
  have hx : x ≠ su := by
    rw [hsu, hnext]
    exact Nat.ne_of_lt (Cells.lt_next hS)
  simp [toSub, hx]

theorem psWaitOne_serves {topic : Str} {timeout : Int64} {ret : Option MsgId} (hok : s.Ok)
    (h : psWaitOne s topic timeout = some (ret, s')) : ∃ ps, Serves s s' ps 0 := by
  obtain ⟨su, s₁, s₂, hnew, hget, hfree⟩ := psWaitOne_eq_some h
  have hok₁ := (psNewSubscriber_quiet hok hnew).ok
  obtain ⟨ps, hserves, hsu, -, -⟩ := psNewSubscriber_serves hok hnew
  have hall := hserves.trans ((psGet_serves hget).trans
    (psFreeSubscriber_serves (psGet_ok hok₁ hget).1 hfree).1)
  refine ⟨_, hall.congr_out fun x S _ hS _ => ?_⟩
  have hx : x ≠ su := by
    rw [hsu]
    exact Nat.ne_of_lt (Cells.lt_next hS)
  simp [toSub, hx]

end Calls

/-! ### One call -/

/-- The messages that a call hands out to the owner of `su`. -/
def gotBy (su : SubId) : Label → ℤ
  | (.get x _, .msg (some _)) => toSub x 1 su
  | _ => 0

/-- The result of a `ps_flush` of `su`. -/
def flushedBy (su : SubId) : Label → ℤ
  | (.flush x, .int n) => toSub x n su
  | _ => 0

/-- The result of a `ps_overflow` of `su`. -/
def reportedBy (su : SubId) : Label → ℤ
  | (.overflow x, .int n) => toSub x n su
  | _ => 0

def handed (e : Label) (su : SubId) : ℤ := gotBy su e + flushedBy su e + reportedBy su e

/-- Every call serves the subscribers that live before and after it. -/
theorem step_serves {s s' : Bus Q} {op : Op} {r : Ret} (hok : s.Ok) (h : step s op = some (r, s')) :
    ∃ ps, Serves s s' ps (handed (op, r)) := by
  cases op
  all_goals
    obtain ⟨x, hx, heq⟩ := Option.map_eq_some_iff.mp h
    cases heq
  case newSubscriber =>
    obtain ⟨ps, hps, -⟩ := psNewSubscriber_serves hok hx
    exact ⟨ps, hps⟩
  case freeSubscriber => exact ⟨[], (psFreeSubscriber_serves hok hx).1⟩
  case setNewMsgCb su cb =>
    obtain ⟨S, callbacks, hS, rfl⟩ := psSetNewMsgCb_eq_some hx
    exact ⟨[], .of_touch_const rfl hS rfl rfl rfl⟩
  case setNonEmptyCb su cb =>
    obtain ⟨S, callbacks, hS, rfl⟩ := psSetNonEmptyCb_eq_some hx
    exact ⟨[], .of_touch_const rfl hS rfl rfl rfl⟩
  case get su timeout =>
    obtain ⟨msg, s'⟩ := x
    refine ⟨[], (psGet_serves hx).congr_out fun y S S' _ _ => ?_⟩
    cases msg with
    | none => simp [handed, gotBy, flushedBy, reportedBy, toSub]
    | some msg => simp [handed, gotBy, flushedBy, reportedBy, toSub]
  case flush su =>
    refine ⟨[], (psFlush_serves hx).congr_out fun y S S' _ _ => ?_⟩
    simp [handed, gotBy, flushedBy, reportedBy]
  case overflow su =>
    refine ⟨[], (psOverflow_serves hx).congr_out fun y S S' _ _ => ?_⟩
    simp [handed, gotBy, flushedBy, reportedBy]
  case subscribe => exact psSubscribeFlags_serves hok hx
  case subscribeFlags => exact psSubscribeFlags_serves hok hx
  case subscribeMany => exact psSubscribeMany_serves hok hx
  case unsubscribe => exact ⟨[], psUnsubscribe_serves hok hx⟩
  case unsubscribeMany => exact psUnsubscribeMany_serves hok hx
  case unsubscribeAll => exact ⟨[], psUnsubscribeAll_serves hok hx⟩
  case publish msg =>
    cases msg with
    | none =>
      cases hx
      exact ⟨[], .of_same rfl rfl⟩
    | some msg =>
      obtain ⟨n, s'⟩ := x
      obtain ⟨m, topic, as, s₀, s₁, hp⟩ := psPublish_published hok.names hok.alive hx
      exact ⟨_, hp.serves⟩
  case cleanSticky pre =>
    have hc := psCleanSticky_cleaned hok.names hok.alive hx
    exact ⟨[], .of_same hc.subscribers hc.pushes⟩
  case call msg timeout =>
    obtain ⟨ret, s'⟩ := x
    obtain ⟨s₁, s₂, s₃, s₄, su, n, hc⟩ := psCall_called hx
    exact hc.serves hok
  case waitOne topic timeout => exact psWaitOne_serves hok hx
  all_goals exact ⟨[], .of_same rfl rfl⟩

end PubSub
