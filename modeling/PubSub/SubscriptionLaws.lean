import PubSub.Room

/-! The subscriptions as a relation between subscribers and topics: what each call
adds to it or takes from it, what the call returns, and that a call which fails
changes nothing. -/

namespace PubSub

open Lib Bus

variable {Q : Type → Type} [PsQueue Q] [LawfulPsQueue Q]

section Numbers
variable {s s' : Bus Q} {su : SubId} {t : Str} {r : ℤ} {n : ℕ}

/-- `k` more topics are in the subscriber's list. -/
def NumSubsAdd (su : SubId) (k : ℕ) (s s' : Bus Q) : Prop :=
  psNumSubs s' su = (psNumSubs s su).map (· + k)

theorem NumSubsAdd.refl (su : SubId) (s : Bus Q) : NumSubsAdd su 0 s s := by
  unfold NumSubsAdd
  cases psNumSubs s su <;> rfl

theorem NumSubsAdd.trans {j k : ℕ} {a b c : Bus Q} (h₁ : NumSubsAdd su j a b)
    (h₂ : NumSubsAdd su k b c) : NumSubsAdd su (j + k) a c := by
  unfold NumSubsAdd at *
  rw [h₂, h₁, Option.map_map]
  congr 1
  funext i
  simp only [Function.comp_apply]
  omega

theorem psNumSubs_eq (s : Bus Q) (su : SubId) :
    psNumSubs s su = (subsOf s.subscribers su).map List.length := by
  simp only [psNumSubs, subsOf, Option.map_map]
  cases s.subscribers.get su <;> rfl

theorem psNumSubs_congr (h : subsOf s'.subscribers = subsOf s.subscribers) :
    psNumSubs s' su = psNumSubs s su := by
  rw [psNumSubs_eq, psNumSubs_eq, h]

/-- A subscription that returns added its entry at the end of the topic's list, or there
was one. -/
theorem psSubscribeFlags_laws {pflags : Option PsSubFlags} (hok : s.Ok)
    (h : psSubscribeFlags s su t pflags = some (r, s')) :
    NumSubsAdd su (if r = 0 then 1 else 0) s s' ∧
    (∀ name, others su (entriesAt s'.topicMap name) = others su (entriesAt s.topicMap name)) ∧
    (su ∉ (entriesAt s.topicMap (cutFlags t)).map SubscriberList.su → r = 0 ∧
      entriesAt s'.topicMap = Function.update (entriesAt s.topicMap) (cutFlags t)
        (entriesAt s.topicMap (cutFlags t) ++
          [⟨su, (subFlags t pflags).hidden, (subFlags t pflags).onEmpty,
            (subFlags t pflags).priority.toInt8⟩])) := by
  rcases psSubscribeFlags_cases hok h with ⟨rfl, hin, rfl⟩ | ⟨rfl, s₁, ps, hsub⟩
  · exact ⟨NumSubsAdd.refl su _, fun _ => rfl, fun hout => absurd hin hout⟩
  · obtain ⟨tm, he⟩ := hsub.edit
    have hentries := he.entriesAt
    rw [← hsub.pushes.sameShape.topicMap] at hentries
    refine ⟨?_, fun name => ?_, fun _ => ⟨rfl, hentries⟩⟩
    · obtain ⟨S, tm, hS, hsubs⟩ := hsub.subscribers
      have hlist := hsub.pushes.sameShape.subsOf
      rw [hsubs, subsOf_modify hS] at hlist
      rw [NumSubsAdd, psNumSubs_eq, psNumSubs_eq, hlist, Function.update_self, subsOf_of_get hS]
      simp
    · rw [hentries, Function.update_apply]
      split
      case isTrue hname =>
        rw [hname]
        exact others_snoc rfl
      case isFalse => rfl

/-- `ps_unsubscribe` takes the entry of that topic out of both lists, or there was none. -/
theorem psUnsubscribe_laws (hok : s.Ok) (h : psUnsubscribe s su t = some (r, s')) :
    NumSubsAdd su (if r = 0 then 1 else 0) s' s ∧
    (∀ name, others su (entriesAt s'.topicMap name) = others su (entriesAt s.topicMap name)) ∧
    (su ∉ (entriesAt s.topicMap (cutFlags t)).map SubscriberList.su → r = -1 ∧ s' = s) ∧
    (su ∈ (entriesAt s.topicMap (cutFlags t)).map SubscriberList.su → r = 0 ∧
      entriesAt s'.topicMap = Function.update (entriesAt s.topicMap) (cutFlags t)
        (others su (entriesAt s.topicMap (cutFlags t))) ∧
      stickyAt s'.topicMap = stickyAt s.topicMap ∧
      queuesOf s'.subscribers = queuesOf s.subscribers) := by
  rcases psUnsubscribe_cases hok h with
    ⟨rfl, hout, rfl⟩ | ⟨rfl, hin, S, tm, hS, htm, hsubs, he, -, hq⟩
  · exact ⟨NumSubsAdd.refl su _, fun _ => rfl, fun _ => ⟨rfl, rfl⟩, fun hin => absurd hin hout⟩
  · have hentries := he.entriesAt
    rw [without_eq_others (nodup_entriesAt hok.links _)] at hentries
    refine ⟨?_, fun name => ?_, fun hout => absurd hin hout, fun _ => ⟨rfl, hentries, hq.sticky, ?_⟩⟩
    · have hlen := List.length_erase_of_mem htm
      have hpos := List.length_pos_of_mem htm
      rw [NumSubsAdd, psNumSubs_eq, psNumSubs_eq, hsubs, subsOf_modify hS, Function.update_self,
        subsOf_of_get hS]
      simp only [↓reduceIte, Option.map_some, Option.some.injEq]
      omega
    · rw [hentries, Function.update_apply]
      split
      case isTrue hname =>
        rw [hname, others_eq_self]
        intro hmem
        obtain ⟨sl, hsl, hsu⟩ := List.mem_map.mp hmem
        exact (mem_others.mp hsl).2 hsu
      case isFalse => rfl
    · rw [hsubs, queuesOf_modify hS, ← queuesOf_eq_some.mpr ⟨S, hS, rfl⟩, Function.update_eq_self]

theorem psSubscribeMany_laws {subs : Option (List Str)} (hok : s.Ok)
    (h : psSubscribeMany s su subs = some (n, s')) : NumSubsAdd su n s s' ∧
      ∀ name, others su (entriesAt s'.topicMap name) = others su (entriesAt s.topicMap name) := by
  refine psSubscribeMany_induct (R := fun _ n s s' => NumSubsAdd su n s s' ∧
    ∀ name, others su (entriesAt s'.topicMap name) = others su (entriesAt s.topicMap name))
    (fun s _ => ⟨NumSubsAdd.refl su s, fun _ => rfl⟩) (fun _ _ r k a b c hok hab hbc => ?_) hok h
  obtain ⟨hnum, hothers, -⟩ := psSubscribeFlags_laws hok hab
  exact ⟨hnum.trans hbc.1, fun name => (hbc.2 name).trans (hothers name)⟩

theorem psUnsubscribeMany_laws {subs : Option (List Str)} (hok : s.Ok)
    (h : psUnsubscribeMany s su subs = some (n, s')) : NumSubsAdd su n s' s ∧
      ∀ name, others su (entriesAt s'.topicMap name) = others su (entriesAt s.topicMap name) := by
  refine psUnsubscribeMany_induct (R := fun _ n s s' => NumSubsAdd su n s' s ∧
    ∀ name, others su (entriesAt s'.topicMap name) = others su (entriesAt s.topicMap name))
    (fun s _ => ⟨NumSubsAdd.refl su s, fun _ => rfl⟩) (fun _ _ r k a b c hok hab hbc => ?_) hok h
  obtain ⟨hnum, hothers, -⟩ := psUnsubscribe_laws hok hab
  refine ⟨?_, fun name => (hbc.2 name).trans (hothers name)⟩
  rw [Nat.add_comm]
  exact hbc.1.trans hnum

/-- The entry that a list of topic strings makes at `name`: the first string that names it
says the flags, the later ones find the subscriber listed. -/
def entryOfList (su : SubId) (topics : List Str) (name : Str) : Option SubscriberList :=
  (topics.find? fun t => cutFlags t = name).map fun t => requestedEntry su (t, none)

theorem psSubscribeMany_entriesAt {subs : Option (List Str)} (hok : s.Ok)
    (h : psSubscribeMany s su subs = some (n, s')) (name : Str) :
    entriesAt s'.topicMap name = entriesAt s.topicMap name ++
      if su ∈ (entriesAt s.topicMap name).map SubscriberList.su then []
      else (entryOfList su (subs.getD []) name).toList := by
  refine psSubscribeMany_induct (R := fun ts _ s s' => entriesAt s'.topicMap name =
    entriesAt s.topicMap name ++ if su ∈ (entriesAt s.topicMap name).map SubscriberList.su then []
      else (entryOfList su ts name).toList) (fun s _ => by simp [entryOfList])
    (fun t ts r k a b c hok hab hbc => ?_) hok h
  rw [hbc]
  by_cases hin : su ∈ (entriesAt a.topicMap (cutFlags t)).map SubscriberList.su
  · rw [psSubscribeFlags_listed hok none hin] at hab
    cases hab
    by_cases hname : cutFlags t = name
    · rw [← hname, if_pos hin, if_pos hin]
    · simp only [entryOfList, List.find?_cons, hname, decide_false]
  · rw [((psSubscribeFlags_laws hok hab).2.2 hin).2]
    by_cases hname : cutFlags t = name
    · subst hname
      simp [entryOfList, requestedEntry, hin]
    · simp only [entryOfList, List.find?_cons, hname, decide_false,
        Function.update_of_ne (Ne.symm hname)]

theorem psUnsubscribeMany_entriesAt {subs : Option (List Str)} (hok : s.Ok)
    (h : psUnsubscribeMany s su subs = some (n, s')) (name : Str) :
    entriesAt s'.topicMap name = if name ∈ (subs.getD []).map cutFlags then
      others su (entriesAt s.topicMap name) else entriesAt s.topicMap name := by
  refine psUnsubscribeMany_induct (R := fun ts _ s s' => entriesAt s'.topicMap name =
    if name ∈ ts.map cutFlags then others su (entriesAt s.topicMap name)
    else entriesAt s.topicMap name) (fun s _ => by simp)
    (fun t ts r k a b c hok hab hbc => ?_) hok h
  have hone : entriesAt b.topicMap = Function.update (entriesAt a.topicMap) (cutFlags t)
      (others su (entriesAt a.topicMap (cutFlags t))) := by
    by_cases hin : su ∈ (entriesAt a.topicMap (cutFlags t)).map SubscriberList.su
    · exact ((psUnsubscribe_laws hok hab).2.2.2 hin).2.1
    · obtain ⟨-, rfl⟩ := (psUnsubscribe_laws hok hab).2.2.1 hin
      rw [others_eq_self hin, Function.update_eq_self]
  rw [hbc, hone]
  by_cases hname : name = cutFlags t
  · subst hname
    simp [others]
  · simp [hname]

theorem psUnsubscribeMany_exists (hok : s.Ok) (su : SubId) (subs : Option (List Str)) :
    ∃ n s', psUnsubscribeMany s su subs = some (n, s') := by
  cases subs with
  | none => exact ⟨0, s, rfl⟩
  | some subs =>
    apply countOks_exists subs _ hok
    intro s topic hok
    obtain ⟨r, s', h⟩ := psUnsubscribe_exists hok su topic
    exact ⟨r, s', h, (psUnsubscribe_quiet hok h).1.ok⟩

/-- `ps_unsubscribe_all` returns what `ps_num_subs` returns, and takes all entries. -/
theorem psUnsubscribeAll_laws {k : ℕ} (hok : s.Ok) (hk : psNumSubs s su = some k) :
    ∃ s', psUnsubscribeAll s su = some (k, s') ∧ psNumSubs s' su = some 0 ∧
      ∀ name, entriesAt s'.topicMap name = others su (entriesAt s.topicMap name) := by
  obtain ⟨S, hS, heq⟩ := Option.bind_eq_some_iff.mp hk
  cases heq
  obtain ⟨s', h⟩ := psUnsubscribeAll_exists hok hS
  obtain ⟨S', T, hS', -, rfl, -, hentries, -⟩ := psUnsubscribeAll_eq_some hok h
  refine ⟨_, h, ?_, hentries⟩
  simp [psNumSubs, hS]

end Numbers

/-- The laws of the subscriptions of `su` in every reachable state. A topic of two
topic strings is the same if they differ after the first space only. New subscriptions
return if `su` lives, the priorities are of one digit and the counters have room for the
replay. -/
theorem subscription_laws {h : List Label} {s : Bus Q} (hr : Bus.init.Reaches h s) (su : SubId) :
    (∀ t pflags, su ∈ (entriesAt s.topicMap (cutFlags t)).map SubscriberList.su →
      psSubscribeFlags s su t pflags = some (-1, s)) ∧
    (∀ t pflags r s', su ∉ (entriesAt s.topicMap (cutFlags t)).map SubscriberList.su →
      psSubscribeFlags s su t pflags = some (r, s') → r = 0 ∧
        entriesAt s'.topicMap = Function.update (entriesAt s.topicMap) (cutFlags t)
          (entriesAt s.topicMap (cutFlags t) ++
            [⟨su, (subFlags t pflags).hidden, (subFlags t pflags).onEmpty,
              (subFlags t pflags).priority.toInt8⟩])) ∧
    (∀ held t pflags, su ∉ (entriesAt s.topicMap (cutFlags t)).map SubscriberList.su →
      (s.subscribers.get su).isSome → (subFlags t pflags).priority.toNat < 10 →
      s.Spare held (replayCount s.topicMap [(t, pflags)]) →
      ∃ s', psSubscribeFlags s su t pflags = some (0, s')) ∧
    (∀ t, su ∉ (entriesAt s.topicMap (cutFlags t)).map SubscriberList.su →
      psUnsubscribe s su t = some (-1, s)) ∧
    (∀ t, su ∈ (entriesAt s.topicMap (cutFlags t)).map SubscriberList.su →
      ∃ s', psUnsubscribe s su t = some (0, s') ∧
        entriesAt s'.topicMap = Function.update (entriesAt s.topicMap) (cutFlags t)
          (others su (entriesAt s.topicMap (cutFlags t))) ∧
        stickyAt s'.topicMap = stickyAt s.topicMap ∧
        queuesOf s'.subscribers = queuesOf s.subscribers) ∧
    (∀ subs n s' k, psSubscribeMany s su subs = some (n, s') → psNumSubs s su = some k →
      psNumSubs s' su = some (k + n) ∧
      (∀ name, others su (entriesAt s'.topicMap name) = others su (entriesAt s.topicMap name)) ∧
      ∀ name, entriesAt s'.topicMap name = entriesAt s.topicMap name ++
        if su ∈ (entriesAt s.topicMap name).map SubscriberList.su then []
        else (entryOfList su (subs.getD []) name).toList) ∧
    (∀ held subs, (s.subscribers.get su).isSome →
      s.Spare held (replayCount s.topicMap ((subs.getD []).map fun t => (t, none))) →
      ∃ n s', psSubscribeMany s su subs = some (n, s')) ∧
    (∀ subs k, psNumSubs s su = some k → ∃ n s' k', psUnsubscribeMany s su subs = some (n, s') ∧
      psNumSubs s' su = some k' ∧ k = k' + n ∧
      (∀ name, others su (entriesAt s'.topicMap name) = others su (entriesAt s.topicMap name)) ∧
      ∀ name, entriesAt s'.topicMap name = if name ∈ (subs.getD []).map cutFlags then
        others su (entriesAt s.topicMap name) else entriesAt s.topicMap name) ∧
    (∀ k, psNumSubs s su = some k → ∃ s', psUnsubscribeAll s su = some (k, s') ∧
      psNumSubs s' su = some 0 ∧
      ∀ name, entriesAt s'.topicMap name = others su (entriesAt s.topicMap name)) := by
  have hok := hr.ok
  refine ⟨fun t pflags hin => psSubscribeFlags_listed hok pflags hin, fun t pflags r s' hout hs => ?_,
    fun held t pflags hout hsu hp hspare => ?_, fun t hout => ?_, fun t hin => ?_,
    fun subs n s' k hs hk => ?_, fun held subs hsu hspare => ?_, fun subs k hk => ?_,
    fun k hk => psUnsubscribeAll_laws hok hk⟩
  · exact (psSubscribeFlags_laws hok hs).2.2 hout
  · rw [← Nat.zero_add (replayCount _ _)] at hspare
    obtain ⟨r, s', hs, -⟩ := psSubscribeFlags_spare hok hsu hp hspare
    obtain ⟨rfl, -⟩ := (psSubscribeFlags_laws hok hs).2.2 hout
    exact ⟨s', hs⟩
  · obtain ⟨r, s', hs⟩ := psUnsubscribe_exists hok su t
    obtain ⟨rfl, rfl⟩ := (psUnsubscribe_laws hok hs).2.2.1 hout
    exact hs
  · obtain ⟨r, s', hs⟩ := psUnsubscribe_exists hok su t
    obtain ⟨rfl, hrest⟩ := (psUnsubscribe_laws hok hs).2.2.2 hin
    exact ⟨s', hs, hrest⟩
  · obtain ⟨hnum, hothers⟩ := psSubscribeMany_laws hok hs
    rw [NumSubsAdd, hk] at hnum
    exact ⟨hnum, hothers, psSubscribeMany_entriesAt hok hs⟩
  · cases subs with
    | none => exact ⟨0, s, rfl⟩
    | some topics =>
      rw [← Nat.zero_add (replayCount _ _)] at hspare
      obtain ⟨n, s', hs, -⟩ := psSubscribeMany_spare hok hsu hspare
      exact ⟨n, s', hs⟩
  · obtain ⟨n, s', hs⟩ := psUnsubscribeMany_exists hok su subs
    obtain ⟨hnum, hothers⟩ := psUnsubscribeMany_laws hok hs
    rw [NumSubsAdd, hk] at hnum
    obtain ⟨k', hk', heq⟩ := Option.map_eq_some_iff.mp hnum.symm
    exact ⟨n, s', k', hs, hk', heq.symm, hothers, psUnsubscribeMany_entriesAt hok hs⟩

/-- Two subscribers of `a`; the list names `a` and twice `b`, with other flags. -/
theorem subscription_laws_repeated : ∃ (h : List Label) (s s' : Bus Bucket.Queue),
    Bus.init.Reaches h s ∧ psNumSubs s 1 = some 1 ∧
    psSubscribeMany s 1 (some ["a p2".toList, "b h".toList, "b".toList]) = some (1, s') ∧
    psNumSubs s' 1 = some 2 ∧
    (∀ name, others 1 (entriesAt s'.topicMap name) = others 1 (entriesAt s.topicMap name)) ∧
    entriesAt s'.topicMap "a".toList = [⟨0, false, false, 0⟩, ⟨1, false, true, 0⟩] ∧
    entriesAt s'.topicMap "b".toList = [⟨1, true, false, 0⟩] := by
  have hcalls : (exec (Client.step (Q := Bucket.Queue)) [.newSubscriber 2 (some ["a".toList]),
      .newSubscriber 2 (some ["a e".toList])] Client.start).map (fun (_, c) =>
        ((c.bus.subscribers.get 1).isSome && !c.bus.messages.refWrap &&
          c.bus.messages.cells.next = 0 && replayCount c.bus.topicMap
            ((["a p2".toList, "b h".toList, "b".toList]).map fun t => (t, none)) = 0,
          psNumSubs c.bus 1, entriesAt c.bus.topicMap "a".toList, entriesAt c.bus.topicMap "b".toList,
          (psSubscribeMany c.bus 1 (some ["a p2".toList, "b h".toList, "b".toList])).map Prod.fst)) =
      some (true, some 1, [⟨0, false, false, 0⟩, ⟨1, false, true, 0⟩], [], some 1) := by
    decide +kernel
  obtain ⟨⟨rs, c⟩, hexec, heq⟩ := Option.map_eq_some_iff.mp hcalls
  simp only [Prod.mk.injEq, Bool.and_eq_true, Bool.not_eq_true', decide_eq_true_eq] at heq
  obtain ⟨⟨⟨⟨hsu, hw⟩, hnext⟩, hreplay⟩, hnum, ha, hb, hone⟩ := heq
  have hrun : Client.start.Reaches _ c := run_of_exec hexec
  have hspare : c.bus.Spare c.held (replayCount c.bus.topicMap
      ((["a p2".toList, "b h".toList, "b".toList]).map fun t => (t, none))) := by
    refine ⟨hrun.accounted.refOk, hw, fun i => ?_⟩
    rw [hreplay, ← (hrun.accounted.refOk hw i).1, Messages.refs_of_next_le (by omega)]
    decide
  obtain ⟨-, -, -, -, -, hmany, hreturns, -⟩ := subscription_laws hrun.bus 1
  obtain ⟨n, s', hs⟩ := hreturns c.held (some ["a p2".toList, "b h".toList, "b".toList]) hsu hspare
  rw [hs] at hone
  obtain rfl : n = 1 := Option.some.inj hone
  obtain ⟨hnum', hothers, hentries⟩ := hmany _ _ s' 1 hs hnum
  refine ⟨_, c.bus, s', hrun.bus, hnum, hs, hnum', hothers, ?_, ?_⟩
  · rw [hentries, ha]
    decide
  · rw [hentries, hb]
    decide

end PubSub
