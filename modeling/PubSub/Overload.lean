import PubSub.Accounts
import PubSub.Ownership
import PubSub.Queue.Refinement

/-! A subscriber of the bucket queue that is sent more than it can hold, and is then
read until it is empty: what it hands out and what it counts as lost. -/

namespace PubSub

open Lib

/-- A message on its way to a subscriber, with the priority of the subscription. -/
structure Delivery where
  via : Str
  msg : MsgId
  priority : UInt8

/-- Higher priority first, equal priorities in the order of arrival: a stable sort. -/
def byPriority (ds : List Delivery) : List Delivery :=
  ds.mergeSort fun a b => b.priority ≤ a.priority

section Calls
variable {Q : Type → Type} [PsQueue Q] [LawfulPsQueue Q]

/-- The deliveries, one after the other. -/
def deliverAll (s : Bus Q) (su : SubId) : List Delivery → Option (Bus Q)
  | [] => some s
  | d :: ds => do
    let (_, s) ← pushSubscriberQueue s su d.via d.msg d.priority
    deliverAll s su ds

/-- `ps_get` without blocking until it returns NULL, with a bound on the calls. -/
def drain (s : Bus Q) (su : SubId) : ℕ → Option (List MsgId × Bus Q)
  | 0 => none
  | fuel + 1 => do
    let (msg, s) ← psGet s su 0
    match msg with
    | none => some ([], s)
    | some msg => do
      let (msgs, s) ← drain s su fuel
      some (msg :: msgs, s)

end Calls

/-! ### The reference -/

namespace Reference
variable {α : Type} {n : ℕ}

/-- Pushes of messages with their priorities. -/
def pushAll (n : ℕ) (l : List (ℕ × α)) (r : Reference α) : Reference α :=
  l.foldl (fun r x => (r.push n x.2 x.1).2) r

/-- The pushed message with the number of its push. -/
def item (x : (ℕ × α) × ℕ) : Item α := ⟨x.1.1, x.2, x.1.2⟩

theorem pushAll_eq (l : List (ℕ × α)) (items : List (Item α)) (clock : ℕ) :
    pushAll n l ⟨items, clock⟩ =
      ⟨boundedInserts Item.Before n ((l.zipIdx clock).map item) items, clock + l.length⟩ := by
  induction l generalizing items clock with
  | nil => rfl
  | cons x l ih =>
    show pushAll n l ⟨_, clock + 1⟩ = _
    rw [ih, List.length_cons, show clock + 1 + l.length = clock + (l.length + 1) by omega]
    rfl

/-- Pushed to the empty list, the messages are sorted and cut. -/
theorem pushAll_empty (l : List (ℕ × α)) :
    (pushAll n l ⟨[], 0⟩).items.map (fun x => (x.priority, x.msg)) =
      (l.mergeSort fun a b => b.1 ≤ a.1).take n := by
  have hbefore : ∀ a b : (ℕ × α) × ℕ, Item.Before (item a) (item b) ↔
      List.zipIdxLE (fun a b : ℕ × α => decide (b.1 ≤ a.1)) a b = true := by
    intro a b
    simp only [Item.Before, item, List.zipIdxLE, decide_eq_true_eq]
    split
    · split
      · simp only [decide_eq_true_eq]
        omega
      · simp only [iff_true]
        omega
    · simp only [Bool.false_eq_true, iff_false]
      omega
  have htrans : ∀ a b c : ℕ × α, decide (b.1 ≤ a.1) = true → decide (c.1 ≤ b.1) = true →
      decide (c.1 ≤ a.1) = true := by
    intro a b c hab hbc
    simp only [decide_eq_true_eq] at hab hbc ⊢
    omega
  have htotal : ∀ a b : ℕ × α, (decide (b.1 ≤ a.1) || decide (a.1 ≤ b.1)) = true := by
    intro a b
    simp only [Bool.or_eq_true, decide_eq_true_eq]
    omega
  rw [pushAll_eq]
  exact boundedInserts_stable htrans htotal hbefore (fun _ => rfl) l

theorem pushAll_append (l k : List (ℕ × α)) (r : Reference α) :
    pushAll n (l ++ k) r = pushAll n k (pushAll n l r) := List.foldl_append

end Reference

/-! ### The deliveries -/

section Deliveries
variable {s s₀ : Bus Bucket.Queue} {S : PsSubscriber Bucket.Queue} {su : SubId} {n : ℕ} {o : UInt32}
  {held : MsgId → ℕ} {done : List Delivery} {d : Delivery}

/-- The reference list after the deliveries. -/
def kept (n : ℕ) (ds : List Delivery) : Reference MsgId :=
  .pushAll n (ds.map fun d => (d.priority.toNat, d.msg)) ⟨[], 0⟩

/-- The first `n` of the deliveries in the order of their priorities. -/
theorem kept_items (n : ℕ) (ds : List Delivery) :
    (kept n ds).items.map Item.msg = ((byPriority ds).take n).map Delivery.msg := by
  have hsort : (ds.map fun d => (d.priority.toNat, d.msg)).mergeSort (fun a b => b.1 ≤ a.1) =
      (byPriority ds).map fun d => (d.priority.toNat, d.msg) := by
    rw [byPriority, List.map_mergeSort]
    intro a _ b _
    rw [decide_eq_decide]
    exact UInt8.le_iff_toNat_le
  have h := congrArg (List.map Prod.snd)
    (Reference.pushAll_empty (n := n) (ds.map fun d => (d.priority.toNat, d.msg)))
  rw [hsort, ← List.map_take, List.map_map, List.map_map] at h
  exact h

theorem kept_snoc (n : ℕ) (done : List Delivery) (d : Delivery) :
    kept n (done ++ [d]) = ((kept n done).push n d.msg d.priority.toNat).2 := by
  rw [kept, List.map_append, Reference.pushAll_append]
  rfl

/-- The subscriber and its messages after the deliveries `done`, from the state `s₀` in
which nothing waited and `o` losses were counted. -/
structure Filled (s₀ : Bus Bucket.Queue) (held : MsgId → ℕ) (su : SubId) (n : ℕ) (o : UInt32)
    (done : List Delivery) (s : Bus Bucket.Queue) (S : PsSubscriber Bucket.Queue) : Prop where
  get : s.subscribers.get su = some S
  refOk : s.RefOk held
  noWrap : s.messages.refWrap = false
  simulates : Bucket.Simulates n S.q.raw (kept n done)
  lost : S.overflow = o + UInt32.ofNat (done.length - S.q.items.length)
  length_le : S.q.items.length ≤ done.length
  account : ∀ i, s.account held i = s₀.account held i + S.q.items.count i
  counts : ∀ i, S.q.items.count i ≤ done.countP fun d => d.msg = i

theorem Filled.nil (hr : s₀.RefOk held) (hw : s₀.messages.refWrap = false)
    (hS : s₀.subscribers.get su = some S) (hempty : S.q.items = []) (hcap : S.q.capacity = n) :
    Filled s₀ held su n S.overflow [] s₀ S where
  get := hS
  refOk := hr
  noWrap := hw
  simulates := by
    have hcontents : Bucket.contents S.q.raw = [] := List.map_eq_nil_iff.mp hempty
    exact ⟨S.q.ok, hcap, hcontents, List.Pairwise.nil, by simp [kept, Reference.pushAll]⟩
  lost := by simp [hempty]
  length_le := by simp [hempty]
  account i := by simp [hempty]
  counts i := by simp [hempty]

theorem Filled.length_le_capacity (h : Filled s₀ held su n o done s S) : S.q.items.length ≤ n :=
  (S.q.length_le).trans_eq h.simulates.capacity

/-- What a push that returns leaves, by what the queue did. -/
theorem Filled.pushed (h : Filled s₀ held su n o done s S) {ret : QueueRet} {s' : Bus Bucket.Queue}
    (hp : d.priority.toNat < Bucket.PRIORITIES)
    (hstep : PushStep s ⟨su, d.via, d.msg, d.priority, ret⟩ s') (hw : s'.messages.refWrap = false) :
    ∃ S', Filled s₀ held su n o (done ++ [d]) s' S' := by
  have hrefs := hstep.refOk h.refOk
  obtain ⟨S₁, evicted, q, ms₁, ms₂, ms₃, hS, hq, -, -, -, rfl⟩ := hstep
  obtain rfl : S = S₁ := Option.some.inj (h.get.symm.trans hS)
  obtain ⟨-, hpushed⟩ := IdleQueue.push_spec hq
  obtain ⟨ret', dropped, q', hraw, -, hsim⟩ := h.simulates.push (m := d.msg) hp
  have heq := (IdleQueue.push_eq_some.mp hq).symm.trans hraw
  obtain ⟨rfl, -, hqq⟩ : ret = ret' ∧ evicted = dropped ∧ q.raw = q' := by simpa using heq
  refine ⟨{ S with q := q, overflow := if ret = .ok then S.overflow else S.overflow + 1 }, ?_⟩
  have hlen : (ret = .ok → q.items.length = S.q.items.length + 1) ∧
      (ret ≠ .ok → q.items.length = S.q.items.length) := by
    refine ⟨fun hok => ?_, hpushed.refused_length⟩
    subst hok
    exact hpushed.ok_length
  have hle := h.length_le
  have hcount := hpushed.count
  constructor
  case get => rw [Cells.get_modify_self, h.get, Option.map_some]
  case refOk => exact hrefs
  case noWrap => exact hw
  case simulates =>
    rw [kept_snoc]
    show Bucket.Simulates n q.raw _
    rw [hqq]
    exact hsim
  case lost =>
    show (if ret = .ok then S.overflow else S.overflow + 1) = _
    rw [List.length_append, List.length_singleton, h.lost]
    by_cases hok : ret = .ok
    · rw [if_pos hok, hlen.1 hok, Nat.add_sub_add_right]
    · rw [if_neg hok, hlen.2 hok, Nat.sub_add_comm hle, UInt32.ofNat_add, UInt32.add_assoc]
      rfl
  case length_le =>
    rw [List.length_append, List.length_singleton]
    by_cases hok : ret = .ok
    · have := hlen.1 hok
      show q.items.length ≤ _
      omega
    · have := hlen.2 hok
      show q.items.length ≤ _
      omega
  case account =>
    intro i
    have hslots := slotsOf_modify h.get
      { S with q := q, overflow := if ret = .ok then S.overflow else S.overflow + 1 } i
    have hacc := h.account i
    simp only [Bus.account, Pi.add_apply] at hacc hslots ⊢
    omega
  case counts =>
    intro i
    have hc := hcount i
    have hdone := h.counts i
    rw [List.countP_append, List.countP_singleton]
    show q.items.count i ≤ _
    by_cases hi : d.msg = i
    · subst hi
      rw [ownRef_self] at hc
      simp only [decide_true, if_true]
      omega
    · rw [ownRef_of_ne (fun he => hi he.symm)] at hc
      omega

/-- The deliveries return: the messages exist, and their counters have room for the
references of the queue and of one delivery. -/
theorem Filled.deliverAll (h : Filled s₀ held su n o done s S) (ds : List Delivery)
    (hprio : ∀ d ∈ ds, d.priority.toNat < Bucket.PRIORITIES)
    (hlive : ∀ d ∈ ds, 0 < s₀.account held d.msg)
    (hroom : ∀ d ∈ ds, s₀.account held d.msg +
      min (n + 1) ((done ++ ds).countP fun e => e.msg = d.msg) < 2 ^ 32) :
    ∃ s' S', deliverAll s su ds = some s' ∧ Filled s₀ held su n o (done ++ ds) s' S' := by
  induction ds generalizing done s S with
  | nil => exact ⟨s, S, rfl, by rwa [List.append_nil]⟩
  | cons d ds ih =>
    have hcount := h.counts d.msg
    have hle := List.count_le_length (a := d.msg) (l := S.q.items)
    have hcap := h.length_le_capacity
    have hmore : done.countP (fun e => e.msg = d.msg) + 1 ≤
        (done ++ d :: ds).countP fun e => e.msg = d.msg := by
      rw [List.countP_append, List.countP_cons]
      simp only [decide_true, if_true]
      omega
    have hpos := hlive d List.mem_cons_self
    have hfits := hroom d List.mem_cons_self
    have hacc := h.account d.msg
    have hsu : (subsOf s.subscribers su).isSome := by
      rw [subsOf_of_get h.get]
      rfl
    have hmsg : 0 < s.account held d.msg := by omega
    have hone : s.account held d.msg + 1 < 2 ^ 32 := by omega
    obtain ⟨ret, s₁, hstep, hw⟩ := PushStep.exists_of_live d.via h.refOk h.noWrap hmsg hone hsu
      (hprio d List.mem_cons_self)
    obtain ⟨S₁, h₁⟩ := h.pushed (hprio d List.mem_cons_self) hstep hw
    have happend : done ++ [d] ++ ds = done ++ d :: ds := by simp
    obtain ⟨s', S', hds, h'⟩ := ih h₁ (fun e he => hprio e (List.mem_cons_of_mem _ he))
      (fun e he => hlive e (List.mem_cons_of_mem _ he))
      (fun e he => by rw [happend]; exact hroom e (List.mem_cons_of_mem _ he))
    rw [happend] at h'
    refine ⟨s', S', ?_, h'⟩
    rw [PubSub.deliverAll, pushSubscriberQueue_iff.mpr ⟨ret, rfl, hstep⟩]
    exact hds

/-- A subscriber that is read until it is empty hands out the reference list. -/
theorem drain_eq {r : Reference MsgId} {fuel : ℕ} (hS : s.subscribers.get su = some S)
    (hsim : Bucket.Simulates n S.q.raw r) (hfuel : r.items.length < fuel) :
    ∃ s', drain s su fuel = some (r.items.map Item.msg, s') := by
  induction fuel generalizing s S r with
  | zero => omega
  | succ fuel ih =>
    obtain ⟨q, hpull, hsim'⟩ : ∃ q : IdleQueue Bucket.Queue MsgId,
        S.q.pull 0 = some (r.items.head?.map Item.msg, q) ∧
        Bucket.Simulates n q.raw { r with items := r.items.tail } := by
      obtain ⟨q', hpull, hsim'⟩ := hsim.pull
      exact ⟨⟨q', hsim'.inv⟩, IdleQueue.pull_eq_some.mpr hpull, hsim'⟩
    have hget := psGet_eq_some.mpr ⟨S, q, hS, hpull, rfl⟩
    rw [drain, hget]
    cases hitems : r.items with
    | nil => exact ⟨_, rfl⟩
    | cons x items =>
      rw [hitems, List.tail_cons] at hsim'
      rw [hitems, List.length_cons] at hfuel
      have hS' : (s.modifySubscriber su fun _ => { S with q := q }).subscribers.get su =
          some { S with q := q } := by
        simp [Bus.modifySubscriber, hS]
      obtain ⟨s', hs'⟩ := ih hS' hsim' (by dsimp only; omega)
      refine ⟨s', ?_⟩
      simp only [List.head?_cons, Option.map_some, Option.bind_eq_bind, Option.bind_some]
      rw [hs']
      rfl

end Deliveries

namespace Client
variable {h : List Label} {c : Client Bucket.Queue} {su : SubId} {n : ℕ} {subs : Option (List Str)}
  {S : PsSubscriber Bucket.Queue} {ds : List Delivery}

/-- The deliveries to an empty subscriber return. -/
theorem Reaches.filled (hr : start.Reaches h c) (hw : c.bus.messages.refWrap = false)
    (hnew : (.newSubscriber n subs, .subscriber su) ∈ h) (hS : c.bus.subscribers.get su = some S)
    (hempty : S.q.waiting = 0) (hprio : ∀ d ∈ ds, d.priority ≤ 9)
    (hlive : ∀ d ∈ ds, ∃ m, c.bus.messages.cells.get d.msg = some m ∧
      m.ref.toNat + min (n + 1) (ds.countP fun e => e.msg = d.msg) < 2 ^ 32) :
    ∃ s₁ S₁, deliverAll c.bus su ds = some s₁ ∧
      Filled c.bus c.held su n S.overflow ds s₁ S₁ := by
  have hrefs := hr.accounted.refOk
  have hcap := hr.bus.audited.capacity n subs su S hnew hS
  rw [IdleQueue.waiting_eq, List.length_eq_zero_iff] at hempty
  apply (Filled.nil hrefs hw hS hempty hcap).deliverAll ds
  · exact fun d hd => Nat.lt_succ_of_le (hprio d hd)
  · intro d hd
    obtain ⟨m, hm, -⟩ := hlive d hd
    exact (hrefs hw d.msg).2.mp (by rw [hm]; rfl)
  · intro d hd
    obtain ⟨m, hm, hroom⟩ := hlive d hd
    have hacc := (hrefs hw d.msg).1
    rw [Messages.refs_of_get hm] at hacc
    rwa [List.nil_append, ← hacc]

/-- Of the deliveries to an empty subscriber of capacity `n`, reading it until it is
empty hands out the first `n` in the order of their priorities, equal priorities as they
arrived, and the counter has gone up by the number of the others, modulo `2^32`. -/
theorem overload_keeps_best (hr : start.Reaches h c) (hw : c.bus.messages.refWrap = false)
    (hnew : (.newSubscriber n subs, .subscriber su) ∈ h) (hS : c.bus.subscribers.get su = some S)
    (hempty : S.q.waiting = 0) (hprio : ∀ d ∈ ds, d.priority ≤ 9)
    (hlive : ∀ d ∈ ds, ∃ m, c.bus.messages.cells.get d.msg = some m ∧
      m.ref.toNat + min (n + 1) (ds.countP fun e => e.msg = d.msg) < 2 ^ 32) :
    ∃ s₁ S₁ s₂, deliverAll c.bus su ds = some s₁ ∧ s₁.subscribers.get su = some S₁ ∧
      drain s₁ su (ds.length + 1) = some (((byPriority ds).take n).map Delivery.msg, s₂) ∧
      S₁.overflow.toNat = (S.overflow.toNat + ((byPriority ds).drop n).length) % 2 ^ 32 := by
  obtain ⟨s₁, S₁, hdeliver, hf⟩ := hr.filled hw hnew hS hempty hprio hlive
  have hitems := kept_items n ds
  have hlen : S₁.q.items.length = min n ds.length := by
    have h₁ := congrArg List.length hitems
    rw [List.length_map, List.length_map, List.length_take, byPriority, List.length_mergeSort,
      hf.simulates.length] at h₁
    show (List.map Prod.snd (Bucket.contents S₁.q.raw)).length = _
    rw [List.length_map, h₁]
  have hkept : (kept n ds).items.length = S₁.q.items.length := by
    rw [hf.simulates.length]
    exact (List.length_map _).symm
  have hfuel : (kept n ds).items.length < ds.length + 1 := by omega
  obtain ⟨s₂, hdrain⟩ := drain_eq hf.get hf.simulates hfuel
  rw [hitems] at hdrain
  refine ⟨s₁, S₁, s₂, hdeliver, hf.get, hdrain, ?_⟩
  have hdrop : ((byPriority ds).drop n).length = ds.length - S₁.q.items.length := by
    rw [List.length_drop, byPriority, List.length_mergeSort, hlen]
    omega
  rw [hf.lost, hdrop, UInt32.toNat_add, UInt32.toNat_ofNat', Nat.add_mod_mod]

/-- A queue of one that rejects the second message and evicts the first. -/
theorem overload_keeps_best_three : ∃ (c : Client Bucket.Queue) (s₁ s₂ : Bus Bucket.Queue)
    (S₁ : PsSubscriber Bucket.Queue),
    deliverAll c.bus 0 [⟨[], 0, 3⟩, ⟨[], 1, 3⟩, ⟨[], 0, 9⟩] = some s₁ ∧
    s₁.subscribers.get 0 = some S₁ ∧ drain s₁ 0 4 = some ([0], s₂) ∧ S₁.overflow.toNat = 2 := by
  have hcalls : ((exec (Client.step (Q := Bucket.Queue)) [.newSubscriber 1 none,
      .newMsg (some "a".toList) 0x800 .nil, .newMsg (some "a".toList) 0x800 .nil]
        Client.start).bind fun (rs, c) => (c.bus.subscribers.get 0).map fun S =>
      (rs, !c.bus.messages.refWrap && S.q.waiting = 0 && S.overflow = 0,
        (c.bus.messages.cells.get 0).map PsMsg.ref, (c.bus.messages.cells.get 1).map PsMsg.ref)) =
      some ([.subscriber 0, .msg (some 0), .msg (some 1)], true, some 1, some 1) := by
    decide +kernel
  obtain ⟨⟨rs, c⟩, hexec, hlast⟩ := Option.bind_eq_some_iff.mp hcalls
  obtain ⟨S, hS, hfacts⟩ := Option.map_eq_some_iff.mp hlast
  simp only [Prod.mk.injEq, Option.map_eq_some_iff, Bool.and_eq_true, Bool.not_eq_true',
    decide_eq_true_eq] at hfacts
  obtain ⟨rfl, ⟨⟨hw, hempty⟩, hzero⟩, ⟨m₀, hm₀, href₀⟩, m₁, hm₁, href₁⟩ := hfacts
  have hsort : byPriority [⟨[], 0, 3⟩, ⟨[], 1, 3⟩, ⟨[], 0, 9⟩] =
      [⟨[], 0, 9⟩, ⟨[], 0, 3⟩, ⟨[], 1, 3⟩] := by
    simp [byPriority, List.mergeSort]
  have hlive : ∀ d ∈ [(⟨[], 0, 3⟩ : Delivery), ⟨[], 1, 3⟩, ⟨[], 0, 9⟩], ∃ m,
      c.bus.messages.cells.get d.msg = some m ∧ m.ref.toNat + min 2
        (List.countP (fun e : Delivery => e.msg = d.msg) [⟨[], 0, 3⟩, ⟨[], 1, 3⟩, ⟨[], 0, 9⟩]) <
          2 ^ 32 := by
    intro d hd
    rcases (show d.msg = 0 ∨ d.msg = 1 by simp at hd; rcases hd with rfl | rfl | rfl <;> simp)
      with h | h
    · exact ⟨m₀, by rw [h]; exact hm₀, by rw [href₀, h]; decide⟩
    · exact ⟨m₁, by rw [h]; exact hm₁, by rw [href₁, h]; decide⟩
  obtain ⟨s₁, S₁, s₂, hdeliver, hS₁, hdrain, hlost⟩ := overload_keeps_best (run_of_exec hexec) hw
    List.mem_cons_self hS hempty (by decide) hlive
  rw [hsort] at hdrain hlost
  rw [hzero] at hlost
  exact ⟨c, s₁, s₂, S₁, hdeliver, hS₁, hdrain, hlost⟩

/-- `2^32` deliveries to a queue without nodes, after which the counter is 0 again. -/
theorem overload_wraps : ¬ ∀ (h : List Label) (c : Client Bucket.Queue) (su : SubId) (n : ℕ)
    (subs : Option (List Str)) (S : PsSubscriber Bucket.Queue) (ds : List Delivery),
    start.Reaches h c → (.newSubscriber n subs, .subscriber su) ∈ h →
    c.bus.subscribers.get su = some S → S.q.waiting = 0 → S.overflow = 0 →
    (∀ d ∈ ds, d.priority ≤ 9) → ∀ s₁ S₁, deliverAll c.bus su ds = some s₁ →
    s₁.subscribers.get su = some S₁ →
    (∃ fuel s₂, drain s₁ su fuel = some (((byPriority ds).take n).map Delivery.msg, s₂)) ∧
      S₁.overflow.toNat = ((byPriority ds).drop n).length := by
  intro hall
  have hcalls : ((exec (Client.step (Q := Bucket.Queue)) [.newSubscriber 0 none,
      .newMsg (some "a".toList) 0x800 .nil] Client.start).bind fun (rs, c) =>
        (c.bus.subscribers.get 0).map fun S =>
          (rs, !c.bus.messages.refWrap && S.q.waiting = 0 && S.overflow = 0,
            (c.bus.messages.cells.get 0).map PsMsg.ref)) =
      some ([.subscriber 0, .msg (some 0)], true, some 1) := by
    decide +kernel
  obtain ⟨⟨rs, c⟩, hexec, hlast⟩ := Option.bind_eq_some_iff.mp hcalls
  obtain ⟨S, hS, hfacts⟩ := Option.map_eq_some_iff.mp hlast
  simp only [Prod.mk.injEq, Option.map_eq_some_iff, Bool.and_eq_true, Bool.not_eq_true',
    decide_eq_true_eq] at hfacts
  obtain ⟨rfl, ⟨⟨hw, hempty⟩, hzero⟩, m, hm, href⟩ := hfacts
  have hrun : start.Reaches _ c := run_of_exec hexec
  generalize hds : List.replicate (2 ^ 32) (⟨[], 0, 0⟩ : Delivery) = ds
  have hsame : ∀ d ∈ ds, d = ⟨[], 0, 0⟩ := by
    intro d hd
    rw [← hds] at hd
    exact List.eq_of_mem_replicate hd
  have hlow : ∀ d ∈ ds, d.priority ≤ 9 := by
    intro d hd
    rw [hsame d hd]
    decide
  have hlive : ∀ d ∈ ds, ∃ m, c.bus.messages.cells.get d.msg = some m ∧
      m.ref.toNat + min (0 + 1) (ds.countP fun e => e.msg = d.msg) < 2 ^ 32 := by
    intro d hd
    refine ⟨m, by rw [hsame d hd]; exact hm, ?_⟩
    have hone : m.ref.toNat = 1 := by rw [href]; rfl
    omega
  obtain ⟨s₁, S₁, hdeliver, hf⟩ := hrun.filled hw List.mem_cons_self hS hempty hlow hlive
  have hlost := (hall _ c 0 0 none S ds hrun List.mem_cons_self hS hempty hzero hlow s₁ S₁
    hdeliver hf.get).2
  have hnone : S₁.q.items.length = 0 := Nat.le_zero.mp hf.length_le_capacity
  have hlen : ds.length = 2 ^ 32 := by rw [← hds, List.length_replicate]
  have hback : S₁.overflow = 0 := by
    rw [hf.lost, hnone, hlen, hzero]
    rfl
  rw [hback, List.drop_zero, byPriority, List.length_mergeSort, hlen] at hlost
  exact absurd hlost (by decide)

end Client

end PubSub
