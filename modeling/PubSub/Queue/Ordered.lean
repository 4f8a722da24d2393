import PubSub.Lib.BoundedInsert
import PubSub.Queue.Ranks
import PubSub.Queue.Ring

/-! Both backends as one queue: a list in order of ranks, in which a push inserts
behind everything of its rank, and which loses its last message when it is too
long. The buckets rank a message by its priority, the ring ranks all alike. -/

namespace PubSub

open Lib PsQueue LawfulPsQueue

/-- The first has the higher rank. -/
def Outranks {α : Type} (a b : ℕ × α) : Prop := b.1 < a.1

instance {α : Type} : DecidableRel (Outranks (α := α)) := fun a b =>
  inferInstanceAs (Decidable (b.1 < a.1))

/-- A backend with the rank it gives to a priority and the messages in order. -/
class OrderedPsQueue (Q : Type → Type) [PsQueue Q] [LawfulPsQueue Q] where
  rank : UInt8 → ℕ
  ranked : {α : Type} → Q α → List (ℕ × α)
  ranked_items : ∀ {α : Type} (q : Q α), (ranked q).map Prod.snd = items q
  ranked_sorted : ∀ {α : Type} (q : Q α), (ranked q).Pairwise fun a b => b.1 ≤ a.1
  ranked_push : ∀ {α : Type} {q q' : Q α} {m : α} {p : UInt8} {ret : QueueRet} {d : Option α},
    Inv 0 q → psQueuePush q m p = some (ret, d, q') →
    ranked q' = (boundedInsert Outranks (capacity q) (rank p, m) (ranked q)).1
  ranked_evict : ∀ {α : Type} {q q' : Q α} {m : α} {p : UInt8} {d : Option α},
    Inv 0 q → psQueuePush q m p = some (.eoverflow, d, q') → ∃ x ∈ ranked q, x.1 < rank p
  ranked_take : ∀ {α : Type} {q q' : Q α}, takeToken q = some q' → ranked q' = ranked q
  ranked_pull : ∀ {α : Type} {k : ℕ} {q q' : Q α} {m : α}, Inv (k + 1) q →
    pullLocked q = some (some m, q') → ranked q' = (ranked q).tail

namespace Bucket

theorem contents_push {α : Type} {q q' : Queue α} {m : α} {p : UInt8} {ret : QueueRet} {d : Option α}
    (hq : Inv 0 q) (h : psQueuePush q m p = some (ret, d, q')) :
    contents q' = (boundedInsert Outranks (capacity q) (p.toNat, m) (contents q)).1 := by
  have hcap := capacity_eq hq.noNull
  have habove : ∀ n, ∀ x ∈ span q p.toNat n, ¬ Outranks (p.toNat, m) x := by
    intro n x hx
    exact Nat.not_lt.mpr (mem_span hx).1
  have hbelow : ∀ x ∈ span q 0 p.toNat, Outranks (p.toNat, m) x := by
    intro x hx
    have := (mem_span hx).2
    rw [Nat.zero_add] at this
    exact this
  rcases psQueuePush_cases hq.noNull h with ⟨n, -, -, hp, ha, -, -, hc⟩ |
    ⟨-, -, ha, rfl, hnil⟩ | ⟨e, low, -, -, hp, ha, -, -, -, hlow, hc⟩
  · have hsplit := contents_split q (Nat.le_of_lt hp)
    rw [hsplit] at hcap ⊢
    rw [boundedInsert_room (habove _) hbelow (by rw [hcap, ha, List.length_cons]; omega), hc]
  · rw [ha, List.length_nil, Nat.zero_add] at hcap
    have hkept : ∀ x ∈ contents q', ¬ Outranks (p.toNat, m) x := fun x hx =>
      Nat.not_lt.mpr (le_of_span_eq_nil hnil hx)
    rw [boundedInsert_reject hkept hcap.le]
  · have hsplit := contents_split q (Nat.le_of_lt hp)
    rw [hlow] at hsplit hbelow
    rw [ha, List.length_nil, Nat.zero_add, hsplit] at hcap
    rw [hsplit, boundedInsert_evict (habove _) (fun y hy => hbelow y (List.mem_append_left _ hy))
      (hbelow e (by simp)) hcap.le, hc]

instance : OrderedPsQueue Queue where
  rank := UInt8.toNat
  ranked := contents
  ranked_items _ := rfl
  ranked_sorted q := span_sorted q 0 PRIORITIES
  ranked_push := contents_push
  ranked_evict {α q q' m p d} hq h := by
    rcases psQueuePush_cases hq.noNull h with ⟨-, heq, -⟩ | ⟨heq, -⟩ |
      ⟨e, low, -, -, hp, -, -, -, -, hlow, -⟩
    · cases heq
    · cases heq
    · have he : e ∈ span q 0 p.toNat := by
        rw [hlow]
        simp
      refine ⟨e, ?_, (mem_span he).2.trans_eq (Nat.zero_add _)⟩
      rw [contents_split q (Nat.le_of_lt hp)]
      exact List.mem_append_right _ he
  ranked_take h := by
    obtain ⟨t, -, rfl⟩ := Option.map_eq_some_iff.mp h
    exact span_eq_of_priorities rfl 0 PRIORITIES
  ranked_pull {α k q q' m} hq h := by
    have h : bqueueGet q = (some m, q') := Option.some.inj h
    rcases bqueueGet_cases hq.noNull with ⟨-, hg⟩ | ⟨x, q'', hg, hc, -⟩
    · cases h.symm.trans hg
    · cases h.symm.trans hg
      rw [hc, List.tail_cons]

end Bucket

namespace Ring

instance : OrderedPsQueue Queue where
  rank _ := 0
  ranked q := (contents q).map fun m => (0, m)
  ranked_items q := by
    rw [List.map_map]
    exact List.map_id _
  ranked_sorted _ := List.pairwise_map.mpr (List.pairwise_of_forall fun _ _ => Nat.le_refl 0)
  ranked_push {α q q' m p ret d} hq h := by
    have hkept : ∀ x ∈ (contents q).map fun m => (0, m), ¬ Outranks (0, m) x := fun _ _ =>
      Nat.not_lt_zero _
    have hlen : ((contents q).map fun m => ((0 : ℕ), m)).length = q.count := by
      rw [List.length_map]
      exact hq.length_contents
    rcases psQueuePush_cases hq h with ⟨-, -, rfl, hfull⟩ | ⟨-, -, hc, -, -, hi⟩
    · exact (congrArg Prod.fst (boundedInsert_reject hkept (hlen.trans hfull).ge)).symm
    · have hins : boundedInsert Outranks q.size (0, m) ((contents q).map (fun m => (0, m)) ++ []) =
          ((contents q).map (fun m => (0, m)) ++ [(0, m)], none) :=
        boundedInsert_room hkept (fun _ h => nomatch h) (by rwa [List.append_nil, hlen])
      rw [List.append_nil] at hins
      refine Eq.trans ?_ (congrArg Prod.fst hins).symm
      rw [hi, List.map_append]
      rfl
  ranked_evict hq h := by
    rcases psQueuePush_cases hq h with ⟨heq, -⟩ | ⟨heq, -⟩
    · cases heq
    · cases heq
  ranked_take h := by
    obtain ⟨t, -, rfl⟩ := Option.map_eq_some_iff.mp h
    rfl
  ranked_pull {α k q q' m} hq h := by
    obtain ⟨x, q'', hg, -, -, hi⟩ := pullLocked_cases hq
    cases h.symm.trans hg
    rw [hi, List.map_cons, List.tail_cons]

end Ring

/-! ### With no pull in flight -/

namespace IdleQueue
variable {Q : Type → Type} [PsQueue Q] [LawfulPsQueue Q] [OrderedPsQueue Q] {α : Type}

def ranked (q : IdleQueue Q α) : List (ℕ × α) := OrderedPsQueue.ranked q.raw

theorem ranked_items (q : IdleQueue Q α) : q.ranked.map Prod.snd = q.items :=
  OrderedPsQueue.ranked_items q.raw

theorem ranked_sorted (q : IdleQueue Q α) : q.ranked.Pairwise fun a b => b.1 ≤ a.1 :=
  OrderedPsQueue.ranked_sorted q.raw

theorem length_ranked (q : IdleQueue Q α) : q.ranked.length = q.items.length := by
  rw [← ranked_items, List.length_map]

theorem length_ranked_le (q : IdleQueue Q α) : q.ranked.length ≤ q.capacity :=
  q.length_ranked ▸ q.length_le

@[simp] theorem ranked_new (n : ℕ) : (new n : IdleQueue Q α).ranked = [] := by
  rw [← List.length_eq_zero_iff, length_ranked, items_new, List.length_nil]

/-- A push is stored if and only if there is room, and is the insertion in any case. -/
theorem push_ranked {q q' : IdleQueue Q α} {m : α} {p : UInt8} {ret : QueueRet} {d : Option α}
    (h : q.push m p = some (ret, d, q')) :
    q'.ranked = (boundedInsert Outranks q.capacity (OrderedPsQueue.rank Q p, m) q.ranked).1 ∧
      (ret = .ok ↔ q.ranked.length < q.capacity) := by
  refine ⟨OrderedPsQueue.ranked_push q.ok (push_eq_some.mp h), ?_⟩
  have hle := q.length_le
  obtain ⟨-, hp⟩ := push_spec h
  rw [length_ranked]
  constructor
  · rintro rfl
    have hlen := hp.ok_length
    have hle' := q'.length_le
    rw [(push_spec h).1] at hle'
    omega
  · exact fun hlt => (hp.ok_of_lt hlt).1

/-- A wait on an empty queue ends at its deadline. -/
theorem pull_ends {q q' : IdleQueue Q α} {t : Int64} {m : Option α} (h : q.pull t = some (m, q'))
    (hq : q.ranked = []) : ¬ t.toInt32 < 0 := by
  have htok := tokens_add q.ok
  rw [← IdleQueue.items, ← length_ranked, hq, List.length_nil] at htok
  have hpull := pull_eq_some.mp h
  simp only [psQueuePull, semaphoreWait, Option.bind_eq_bind, Option.bind_eq_some_iff] at hpull
  obtain ⟨⟨ret, sem⟩, hw, -⟩ := hpull
  split at hw
  case h_1 sem' ht =>
    have := semaphoreTake_eq_some ht
    omega
  case h_2 =>
    split at hw
    case isTrue => cases hw
    case isFalse hends => exact hends

/-- A pull takes the first. -/
theorem pull_ranked {q q' : IdleQueue Q α} {t : Int64} {m : Option α}
    (h : q.pull t = some (m, q')) :
    m = q.ranked.head?.map Prod.snd ∧ q'.ranked = q.ranked.tail ∧ q'.capacity = q.capacity := by
  have hitems := q.ranked_items
  have hpull := pull_eq_some.mp h
  rcases pull_spec h with ⟨rfl, hnil, rfl⟩ | ⟨x, rfl, hcap, hx⟩
  · rw [hnil, List.map_eq_nil_iff] at hitems
    rw [hitems]
    exact ⟨rfl, rfl, rfl⟩
  · have htail : q'.ranked = q.ranked.tail := by
      simp only [psQueuePull, semaphoreWait, Option.bind_eq_bind, Option.bind_eq_some_iff] at hpull
      obtain ⟨⟨ret, sem⟩, hw, hpull⟩ := hpull
      split at hw
      case h_1 sem' ht =>
        cases hw
        have htake : takeToken q.raw = some (setNotEmpty q.raw sem) := by rw [takeToken, ht]; rfl
        have hinv := (take_inv q.ok htake).1
        rw [if_neg (Int.lt_irrefl 0)] at hpull
        rw [ranked, OrderedPsQueue.ranked_pull hinv hpull, OrderedPsQueue.ranked_take htake]
        rfl
      case h_2 =>
        split at hw
        · cases hw
        · cases hw
          simp at hpull
    rw [hx] at hitems
    cases hr : q.ranked with
    | nil =>
      rw [hr] at hitems
      cases hitems
    | cons y ys =>
      rw [hr, List.map_cons] at hitems
      rw [hr] at htail
      refine ⟨?_, htail, hcap⟩
      rw [List.head?_cons, Option.map_some, (List.cons.inj hitems).1]

end IdleQueue

end PubSub
