import PubSub.Bus.Serving
import PubSub.Queue.Bucket

/-! No message of a subscriber disappears unaccounted, over runs of any length and
for either queue. -/

namespace PubSub

open Lib Bus

variable {Q : Type → Type} [PsQueue Q] [LawfulPsQueue Q]

section Step
variable {s s' : Bus Q} {op : Op} {r : Ret} {su : SubId}

/-- Nothing is handed out for a subscriber that does not exist yet. -/
theorem handed_eq_zero (h : step s op = some (r, s')) (hsu : s.subscribers.next ≤ su) :
    handed (op, r) su = 0 := by
  have hlive : ∀ {x : SubId} {S : PsSubscriber Q}, s.subscribers.get x = some S → su ≠ x := by
    intro x S hS hx
    exact absurd (Cells.lt_next hS) (Nat.not_lt.mpr (hx ▸ hsu))
  cases op
  all_goals
    obtain ⟨x, hx, heq⟩ := Option.map_eq_some_iff.mp h
    cases heq
  case get =>
    obtain ⟨msg, s'⟩ := x
    obtain ⟨S, q, hS, -, -⟩ := psGet_eq_some.mp hx
    cases msg <;> simp [handed, gotBy, flushedBy, reportedBy, toSub, hlive hS]
  case flush =>
    obtain ⟨S, q, ms, hS, -⟩ := psFlush_flushed hx
    simp [handed, gotBy, flushedBy, reportedBy, toSub, hlive hS]
  case overflow =>
    obtain ⟨S, hS, -, -⟩ := psOverflow_eq_some hx
    simp [handed, gotBy, flushedBy, reportedBy, toSub, hlive hS]
  all_goals rfl

/-- The temporary subscriber of `ps_call` and `ps_wait_one` is the only one that
they make. -/
theorem temporary_gone {s₁ s₂ : Bus Q} {x : SubId} {topic : Str} (hok : s.Ok)
    (hnew : psNewSubscriber s 1 (some [topic]) = some (x, s₁)) (hok₂ : s₂.Ok)
    (hnext : s₂.subscribers.next = s₁.subscribers.next) (hfree : psFreeSubscriber s₂ x = some s')
    (hsu : s.subscribers.next ≤ su) : s'.subscribers.get su = none := by
  obtain ⟨hx, n, s₃, hmany, rfl⟩ := psNewSubscriber_eq_some hnew
  have hsame := (psSubscribeMany_quiet (addSubscriber_quiet hok 1).ok hmany).2.next
  obtain ⟨s₄, S, -, hsame', -, -, -, -, -, -, hs'⟩ := psFreeSubscriber_eq_some hok₂ hfree
  have hnone := (psFreeSubscriber_serves hok₂ hfree).2
  rcases Nat.eq_or_lt_of_le hsu with heq | hlt
  · rw [← heq, ← hx]
    exact hnone
  · apply Cells.fresh
    rw [hs', Cells.next_free, hsame'.next, hnext]
    simp only [hsame, addSubscriber, Cells.next_alloc]
    exact hlt

/-- A subscriber that did not exist before comes from `ps_new_subscriber`. -/
theorem created (hok : s.Ok) (h : step s op = some (r, s')) (hsu : s.subscribers.next ≤ su)
    (hlive : (s'.subscribers.get su).isSome) :
    ∃ n subs, op = .newSubscriber n subs ∧ r = .subscriber su := by
  have hsame : s'.subscribers.next = s.subscribers.next → False := by
    intro hnext
    rw [s'.subscribers.fresh su (by omega)] at hlive
    cases hlive
  cases op
  all_goals
    obtain ⟨x, hx, heq⟩ := Option.map_eq_some_iff.mp h
    cases heq
  case newSubscriber n subs =>
    obtain ⟨x, s'⟩ := x
    obtain ⟨rfl, k, s₁, hmany, rfl⟩ := psNewSubscriber_eq_some hx
    have hnext := (psSubscribeMany_quiet (addSubscriber_quiet hok n).ok hmany).2.next
    obtain ⟨S, hS⟩ := Option.isSome_iff_exists.mp hlive
    have hlt : su < s₁.subscribers.next := Cells.lt_next hS
    rw [hnext, addSubscriber, Cells.next_alloc] at hlt
    have heq : su = s.subscribers.next := Nat.le_antisymm (Nat.le_of_lt_succ hlt) hsu
    exact ⟨n, subs, rfl, by rw [heq]⟩
  case call msg timeout =>
    obtain ⟨ret, s'⟩ := x
    obtain ⟨s₁, s₂, s₃, s₄, x, n, hc⟩ := psCall_called hx
    obtain ⟨hok₁, hok₂, hok₃, hok₄, -⟩ := hc.oks hok
    obtain ⟨ms, -, rfl⟩ := hc.counter
    obtain ⟨m₂, topic, as, t₀, t₁, hpub⟩ := psPublish_published hok₂.names hok₂.alive hc.publish
    have hnext : s₄.subscribers.next = s₂.subscribers.next := by
      rw [← hpub.sameSubscribers.next]
      rcases hc.get with ⟨-, -, rfl⟩ | ⟨-, hget⟩
      · rfl
      · exact (psGet_ok hok₃ hget).2.1.next
    rw [temporary_gone hok₁ hc.new hok₄ hnext hc.free hsu] at hlive
    cases hlive
  case waitOne topic timeout =>
    obtain ⟨ret, s'⟩ := x
    obtain ⟨x, s₁, s₂, hnew, hget, hfree⟩ := psWaitOne_eq_some hx
    have hget' := psGet_ok (psNewSubscriber_quiet hok hnew).ok hget
    rw [temporary_gone hok hnew hget'.1 hget'.2.1.next hfree hsu] at hlive
    cases hlive
  case freeSubscriber =>
    obtain ⟨s₂, S, -, hq, -, -, -, -, -, -, rfl⟩ := psFreeSubscriber_eq_some hok hx
    exact (hsame hq.next).elim
  case setNewMsgCb =>
    obtain ⟨S, callbacks, -, rfl⟩ := psSetNewMsgCb_eq_some hx
    exact (hsame rfl).elim
  case setNonEmptyCb =>
    obtain ⟨S, callbacks, -, rfl⟩ := psSetNonEmptyCb_eq_some hx
    exact (hsame rfl).elim
  case get => exact (hsame (psGet_sameShape hx).next).elim
  case flush =>
    obtain ⟨S, q, ms, hS, hf⟩ := psFlush_flushed hx
    exact (hsame (hf.sameShape hS).next).elim
  case overflow =>
    obtain ⟨S, -, -, hs⟩ := psOverflow_eq_some hx
    exact (hsame (by rw [hs]; rfl)).elim
  case subscribe => exact (hsame (psSubscribeFlags_quiet hok hx).2.next).elim
  case subscribeFlags => exact (hsame (psSubscribeFlags_quiet hok hx).2.next).elim
  case subscribeMany => exact (hsame (psSubscribeMany_quiet hok hx).2.next).elim
  case unsubscribe => exact (hsame (psUnsubscribe_quiet hok hx).2.next).elim
  case unsubscribeMany => exact (hsame (psUnsubscribeMany_quiet hok hx).2.next).elim
  case unsubscribeAll => exact (hsame (psUnsubscribeAll_quiet hok hx).2.next).elim
  case publish msg =>
    cases msg with
    | none =>
      cases hx
      exact (hsame rfl).elim
    | some msg =>
      obtain ⟨n, s'⟩ := x
      obtain ⟨m, topic, as, s₀, s₁, hp⟩ := psPublish_published hok.names hok.alive hx
      exact (hsame hp.sameSubscribers.next).elim
  case cleanSticky =>
    have hc := psCleanSticky_cleaned hok.names hok.alive hx
    exact (hsame (by rw [hc.subscribers])).elim
  all_goals exact (hsame rfl).elim

end Step

/-! ### Runs -/

/-- What was handed out to or reported for `su` in a history. -/
def handedAll (su : SubId) (h : List Label) : ℤ := (h.map fun e => handed e su).sum

theorem handedAll_snoc (su : SubId) (h : List Label) (e : Label) :
    handedAll su (h ++ [e]) = handedAll su h + handed e su := by
  simp [handedAll]

/-- The books after the history `h`. -/
structure Audited (h : List Label) (s : Bus Q) : Prop where
  ok : s.Ok
  known : ∀ p ∈ s.pushes, p.su < s.subscribers.next
  later : ∀ su, s.subscribers.next ≤ su → handedAll su h = 0
  named : ∀ n subs su, (.newSubscriber n subs, .subscriber su) ∈ h → su < s.subscribers.next
  created : ∀ su, (s.subscribers.get su).isSome →
    ∃ n subs, (.newSubscriber n subs, .subscriber su) ∈ h
  capacity : ∀ n subs su S, (.newSubscriber n subs, .subscriber su) ∈ h →
    s.subscribers.get su = some S → S.q.capacity = n
  counter : ∀ su S, s.subscribers.get su = some S → S.overflow.toNat ≤ lossesTo su s.pushes

namespace Audited
variable {h : List Label} {s s' : Bus Q} {op : Op} {r : Ret} {su : SubId} {S' : PsSubscriber Q}

theorem none_before (ha : Audited h s) (hsu : s.subscribers.next ≤ su) :
    pushesTo su s.pushes = 0 :=
  pushesTo_eq_zero fun p hp => Nat.ne_of_lt (Nat.lt_of_lt_of_le (ha.known p hp) hsu)

/-- A subscriber that is new has the account of `ps_new_subscriber`. -/
theorem fresh (ha : Audited h s) (hs : step s op = some (r, s')) (hsu : s.subscribers.next ≤ su)
    (hS' : s'.subscribers.get su = some S') :
    ∃ n subs ps, op = .newSubscriber n subs ∧ r = .subscriber su ∧ S'.q.capacity = n ∧
      s'.pushes = s.pushes ++ ps ∧ S'.overflow.toNat ≤ lossesTo su ps ∧
      (lossesTo su ps < 2 ^ 31 → S'.balance = pushesTo su ps) := by
  obtain ⟨n, subs, rfl, rfl⟩ := PubSub.created ha.ok hs hsu (by rw [hS']; rfl)
  obtain ⟨⟨x, t⟩, hx, heq⟩ := Option.map_eq_some_iff.mp hs
  cases heq
  obtain ⟨ps, hps, -, -, hnew⟩ := psNewSubscriber_serves ha.ok hx
  obtain ⟨hcap, hcounter, hbalance⟩ := hnew S' hS'
  exact ⟨n, subs, ps, rfl, rfl, hcap, hps.pushes, hcounter, hbalance⟩

/-- One that is not new lived before the call. -/
theorem old {ps : List Push} {out : SubId → ℤ} (hserves : Serves s s' ps out)
    (hsu : su < s.subscribers.next) (hS' : s'.subscribers.get su = some S') :
    ∃ S, s.subscribers.get su = some S :=
  Option.isSome_iff_exists.mp (hserves.keep su hsu (by rw [hS']; rfl))

theorem step {e : Label} (ha : Audited h s) (hs : PubSub.step s e.1 = some (e.2, s')) :
    Audited (h ++ [e]) s' := by
  obtain ⟨op, r⟩ := e
  dsimp only at hs
  obtain ⟨ps, hserves⟩ := step_serves ha.ok hs
  refine ⟨(step_spec ha.ok hs).ok, fun p hp => ?_, fun su hsu => ?_, fun n subs su hmem => ?_,
    fun su hlive => ?_, fun n subs su S' hmem hS' => ?_, fun su S' hS' => ?_⟩
  · rw [hserves.pushes] at hp
    rcases List.mem_append.mp hp with hp | hp
    · exact Nat.lt_of_lt_of_le (ha.known p hp) hserves.next
    · exact hserves.known p hp
  · have hsu' := hserves.next.trans hsu
    rw [handedAll_snoc, ha.later su hsu', handed_eq_zero hs hsu', add_zero]
  · rcases List.mem_append.mp hmem with hmem | hmem
    · exact Nat.lt_of_lt_of_le (ha.named n subs su hmem) hserves.next
    · cases List.mem_singleton.mp hmem
      obtain ⟨⟨x, t⟩, hx, heq⟩ := Option.map_eq_some_iff.mp hs
      cases heq
      obtain ⟨qs, -, -, hlt, -⟩ := psNewSubscriber_serves ha.ok hx
      exact hlt
  · obtain ⟨S', hS'⟩ := Option.isSome_iff_exists.mp hlive
    rcases Nat.lt_or_ge su s.subscribers.next with hsu | hsu
    · obtain ⟨S, hS⟩ := old hserves hsu hS'
      obtain ⟨n, subs, hmem⟩ := ha.created su (by rw [hS]; rfl)
      exact ⟨n, subs, List.mem_append_left _ hmem⟩
    · obtain ⟨n, subs, -, rfl, rfl, -⟩ := ha.fresh hs hsu hS'
      exact ⟨n, subs, by simp⟩
  · rcases Nat.lt_or_ge su s.subscribers.next with hsu | hsu
    · obtain ⟨S, hS⟩ := old hserves hsu hS'
      rcases List.mem_append.mp hmem with hmem | hmem
      · rw [hserves.capacity su S S' hS hS', ha.capacity n subs su S hmem hS]
      · cases List.mem_singleton.mp hmem
        obtain ⟨⟨x, t⟩, hx, heq⟩ := Option.map_eq_some_iff.mp hs
        cases heq
        obtain ⟨qs, -, rfl, -, -⟩ := psNewSubscriber_serves ha.ok hx
        exact absurd hsu (Nat.lt_irrefl _)
    · obtain ⟨k, subs', -, rfl, rfl, hcap, -⟩ := ha.fresh hs hsu hS'
      rcases List.mem_append.mp hmem with hmem | hmem
      · exact absurd (ha.named n subs su hmem) (Nat.not_lt.mpr hsu)
      · cases List.mem_singleton.mp hmem
        exact hcap
  · rcases Nat.lt_or_ge su s.subscribers.next with hsu | hsu
    · obtain ⟨S, hS⟩ := old hserves hsu hS'
      have hold := ha.counter su S hS
      have hnew := (hserves.account su S S' hS hS').counter
      rw [hserves.pushes, lossesTo_append]
      omega
    · obtain ⟨n, subs, qs, -, -, -, hqs, hcounter, -⟩ := ha.fresh hs hsu hS'
      rw [hqs, lossesTo_append]
      omega

end Audited

theorem audited_init : Audited [] (Bus.init : Bus Q) := by
  refine ⟨init_ok, ?_, fun _ _ => rfl, ?_, ?_, ?_, ?_⟩
  · intro p hp
    cases hp
  · intro n subs su hmem
    cases hmem
  · intro su hlive
    cases hlive
  · intro n subs su S hmem
    cases hmem
  · intro su S hS
    cases hS

theorem Bus.Reaches.audited {h : List Label} {s : Bus Q} (hr : Bus.init.Reaches h s) :
    Audited h s :=
  Run.history (P := fun h s => Audited h s) audited_init (fun _ _ _ _ _ ha hs => ha.step hs) hr

/-- The overflow counter of `su`, or 0 if there is no such subscriber. -/
def overflowOf (s : Bus Q) (su : SubId) : ℕ :=
  (s.subscribers.get su).elim 0 fun S => S.overflow.toNat

/-- The counter of `su` stays below `2^31` between two states, with all the losses on the
way. -/
def CounterFits (su : SubId) (s s' : Bus Q) : Prop :=
  overflowOf s su + lossesTo su (s'.pushes.drop s.pushes.length) < 2 ^ 31

section Counters
variable {h : List Label} {s : Bus Q} {su : SubId}

/-- While the counter fits, the balance and what was handed out are the pushes. -/
theorem settled_of_fits
    (hr : Run (fun s e s' => step s e.1 = some (e.2, s') ∧ CounterFits su s s') Bus.init h s)
    {S : PsSubscriber Q} (hS : s.subscribers.get su = some S) :
    0 ≤ handedAll su h ∧ (S.balance : ℤ) + handedAll su h = pushesTo su s.pushes := by
  suffices hall : Audited h s ∧ ∀ S, s.subscribers.get su = some S →
      0 ≤ handedAll su h ∧ (S.balance : ℤ) + handedAll su h = pushesTo su s.pushes from hall.2 S hS
  refine hr.history (P := fun h s => Audited h s ∧ ∀ S, s.subscribers.get su = some S →
    0 ≤ handedAll su h ∧ (S.balance : ℤ) + handedAll su h = pushesTo su s.pushes)
    ⟨audited_init, fun S hS => by cases hS⟩ ?_
  rintro h s ⟨op, r⟩ s' - ⟨ha, hacc⟩ ⟨hs, hfits⟩
  dsimp only at hs
  refine ⟨ha.step (e := (op, r)) hs, fun S' hS' => ?_⟩
  rw [handedAll_snoc]
  rcases Nat.lt_or_ge su s.subscribers.next with hsu | hsu
  · obtain ⟨ps, hserves⟩ := step_serves ha.ok hs
    obtain ⟨S, hS⟩ := Audited.old hserves hsu hS'
    rw [CounterFits, overflowOf, hS, hserves.pushes, List.drop_left] at hfits
    obtain ⟨h0, hb⟩ := hacc S hS
    obtain ⟨h0', hb'⟩ := (hserves.account su S S' hS hS').kept hfits
    rw [hserves.pushes, pushesTo_append]
    omega
  · obtain ⟨n, subs, ps, -, -, -, hps, -, hbalance⟩ := ha.fresh hs hsu hS'
    rw [CounterFits, hps, List.drop_left] at hfits
    rw [ha.later su hsu, handed_eq_zero hs hsu, hbalance (by omega), hps, pushesTo_append,
      ha.none_before hsu]
    simp

/-- The counter fits in a run with fewer than `2^31` pushes. -/
theorem fits_of_pushes (hr : Bus.init.Reaches h s) (hlt : pushesTo su s.pushes < 2 ^ 31) :
    Run (fun s e s' => step s e.1 = some (e.2, s') ∧ CounterFits su s s') Bus.init h s := by
  induction hr with
  | nil => exact .nil
  | @snoc h s s' e hr hs ih =>
    have ha := Bus.Reaches.audited hr
    obtain ⟨ps, hserves⟩ := step_serves ha.ok hs
    rw [hserves.pushes, pushesTo_append] at hlt
    refine (ih (by omega)).snoc ⟨hs, ?_⟩
    have hcounter : overflowOf s su ≤ lossesTo su s.pushes := by
      rw [overflowOf]
      cases hS : s.subscribers.get su with
      | none => exact Nat.zero_le _
      | some S => exact ha.counter su S hS
    have hold := lossesTo_le su s.pushes
    have hnew := lossesTo_le su ps
    rw [CounterFits, hserves.pushes, List.drop_left]
    omega

end Counters

theorem handedAll_eq (su : SubId) (h : List Label) :
    handedAll su h = (h.map (gotBy su)).sum + (h.map (flushedBy su)).sum +
      (h.map (reportedBy su)).sum := by
  induction h with
  | nil => rfl
  | cons e h ih =>
    have hcons : handedAll su (e :: h) = handed e su + handedAll su h := rfl
    rw [hcons, ih, handed, List.map_cons, List.map_cons, List.map_cons, List.sum_cons,
      List.sum_cons, List.sum_cons]
    omega

/-- While its counter stays below `2^31`, the pushes attempted to a live subscriber are the
messages got, those flushed, those waiting, the losses in the counter and the losses
reported; fewer than `2^31` pushes are enough for that. The waiting ones are never more than
the queue size, and a flush returns their number and leaves none. -/
theorem pushes_accounted {h : List Label} {s : Bus Q} (hr : Bus.init.Reaches h s) {su : SubId}
    {S : PsSubscriber Q} (hS : s.subscribers.get su = some S) :
    (Run (fun s e s' => step s e.1 = some (e.2, s') ∧ CounterFits su s s') Bus.init h s →
      (pushesTo su s.pushes : ℤ) = (h.map (gotBy su)).sum + (h.map (flushedBy su)).sum +
        S.q.waiting + S.overflow.toNat + (h.map (reportedBy su)).sum) ∧
    (pushesTo su s.pushes < 2 ^ 31 →
      Run (fun s e s' => step s e.1 = some (e.2, s') ∧ CounterFits su s s') Bus.init h s) ∧
    (∃ n subs, (.newSubscriber n subs, .subscriber su) ∈ h) ∧
    (∀ n subs, (.newSubscriber n subs, .subscriber su) ∈ h → S.q.waiting ≤ n) ∧
    (∀ n s', psFlush s su = some (n, s') → n = S.q.waiting ∧ psWaiting s' su = some 0) ∧
    (∀ held, s.RefOk held → s.messages.refWrap = false → (psFlush s su).isSome) := by
  have ha := hr.audited
  refine ⟨fun hfits => ?_, fits_of_pushes hr, ha.created su (by rw [hS]; rfl), fun n subs hmem => ?_,
    fun n s' hf => ?_, fun held hheld hw => ?_⟩
  · obtain ⟨-, hb⟩ := settled_of_fits hfits hS
    rw [handedAll_eq, PsSubscriber.balance] at hb
    omega
  · rw [IdleQueue.waiting_eq, ← ha.capacity n subs su S hmem hS]
    exact S.q.length_le
  · obtain ⟨S', q, ms, hS', hfl⟩ := psFlush_flushed hf
    obtain rfl : S = S' := Option.some.inj (hS.symm.trans hS')
    refine ⟨by rw [hfl.count, IdleQueue.waiting_eq], ?_⟩
    rw [hfl.state, psWaiting, Cells.get_modify_self, hS]
    simp [IdleQueue.waiting_eq, hfl.empty]
  · obtain ⟨n, s', hf, -⟩ := psFlush_exists hS hheld hw
    rw [hf]
    rfl

/-- A queue of one that stores, evicts and rejects, is read and asked for its losses. -/
theorem pushes_accounted_losses : ∃ (s : Bus Bucket.Queue) (S : PsSubscriber Bucket.Queue),
    (exec step [.newSubscriber 1 (some ["a".toList, "b p5".toList]),
      .newMsg (some "a".toList) 0x800 .nil, .publish (some 0),
      .newMsg (some "b".toList) 0x800 .nil, .publish (some 1),
      .newMsg (some "a".toList) 0x800 .nil, .publish (some 2), .overflow 0, .get 0 0] Bus.init).map
      (fun x => x.2) = some s ∧
    s.subscribers.get 0 = some S ∧ pushesTo 0 s.pushes = 3 ∧
    (pushesTo 0 s.pushes : ℤ) = 1 + 0 + S.q.waiting + S.overflow.toNat + 2 := by
  have hcalls : (exec (step (Q := Bucket.Queue)) [.newSubscriber 1 (some ["a".toList, "b p5".toList]),
      .newMsg (some "a".toList) 0x800 .nil, .publish (some 0),
      .newMsg (some "b".toList) 0x800 .nil, .publish (some 1),
      .newMsg (some "a".toList) 0x800 .nil, .publish (some 2), .overflow 0, .get 0 0] Bus.init).map
        (fun (rs, s) => (rs, pushesTo 0 s.pushes, (s.subscribers.get 0).isSome)) =
      some ([.subscriber 0, .msg (some 0), .int 1, .msg (some 1), .int 0, .msg (some 2), .int 0,
        .int 2, .msg (some 1)], 3, true) := by
    decide +kernel
  obtain ⟨⟨rs, s⟩, hexec, heq⟩ := Option.map_eq_some_iff.mp hcalls
  simp only [Prod.mk.injEq] at heq
  obtain ⟨rfl, hpushes, hlive⟩ := heq
  obtain ⟨S, hS⟩ := Option.isSome_iff_exists.mp hlive
  obtain ⟨haccounted, hfits, -⟩ := pushes_accounted (run_of_exec hexec) hS
  exact ⟨s, S, by rw [hexec]; rfl, hS, hpushes, haccounted (hfits (by omega))⟩

end PubSub
