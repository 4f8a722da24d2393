import PubSub.Origins

/-! Messages with `PS_FL_NONRECURSIVE` stay on the topics that they are published on,
as long as `push_child_sticky`, which does not look at the flag, finds none of them
below the topic of a new subscription. -/

namespace PubSub

open Lib Bus

variable {Q : Type → Type} [PsQueue Q] [LawfulPsQueue Q]

/-- The pushes between two states, each with the flag of its message. -/
def newPushes (s s' : Bus Q) : List (Push × Bool) :=
  (s'.pushes.drop s.pushes.length).map fun p =>
    (p, (s.messages.cells.get p.msg).any PsMsg.nonrecursive)

/-- A call with its result, the event that it is and the pushes that it makes. -/
abbrev PushLogged := Op × Ret × Option StickyEvent × List (Push × Bool)

def pushStep (s : Bus Q) (op : Op) :
    Option ((Ret × Option StickyEvent × List (Push × Bool)) × Bus Q) :=
  (step s op).map fun (r, s') => ((r, stickyEvent s op, newPushes s s'), s')

/-- No new subscription of the call asks for the sticky messages below its topic while
one of them has the flag. -/
def KeepsToTopic (s : Bus Q) (op : Op) : Prop :=
  ∀ pre sub post, (requested s op).2 = pre ++ sub :: post →
    cutFlags sub.1 ∉ pre.map (fun x => cutFlags x.1) →
    (requested s op).1 ∉ (entriesAt s.topicMap (cutFlags sub.1)).map SubscriberList.su →
    (subFlags sub.1 sub.2).noSticky = false → (subFlags sub.1 sub.2).childSticky = true →
    ∀ t msg m, IsAncestor '.' (cutFlags sub.1) t → t ≠ cutFlags sub.1 →
      stickyAt s.topicMap t = some msg → s.messages.cells.get msg = some m →
      m.nonrecursive = false

section Step
variable {s s' : Bus Q} {op : Op} {r : Ret} {p : Push} {m : PsMsg}

/-- A push of a message with the flag is for the topic that the call publishes it on. If the
call does not publish, or is `ps_call` with its own subscription, it may be for a topic that
the message was published on before, as a sticky one. -/
theorem Origin.published {h : List Logged} (hr : Bus.init.Logs h s) (hk : KeepsToTopic s op)
    (ho : Origin s op p) (hm : s.messages.cells.get p.msg = some m) (hn : m.nonrecursive = true) :
    (∃ b, stickyEvent s op = some (.publish p.msg p.via b)) ∨
      (∀ msg, op ≠ .publish msg) ∧ .publish p.msg p.via true ∈ events h := by
  cases ho with
  | @publish m' t b hevent hm' hvia _ =>
    obtain rfl : m = m' := Option.some.inj (hm.symm.trans hm')
    rw [visited_nonrecursive hn, List.mem_singleton] at hvia
    rw [hevent, hvia]
    exact .inl ⟨b, rfl⟩
  | replay hin =>
    obtain ⟨pre, sub, post, hsubs, hpre, hrep⟩ := hin
    obtain ⟨t, ht, hor⟩ := hrep.sticky
    have htopic : t = cutFlags sub.1 := by
      rcases hor with htopic | ⟨hchild, hanc⟩
      · exact htopic
      · by_contra hne
        have hfalse := hk pre sub post hsubs hpre (by rw [← hrep.subscriber] at *; exact hrep.fresh)
          hrep.wanted hchild t p.msg m hanc hne ht hm
        rw [hn] at hfalse
        cases hfalse
    refine .inr ⟨fun msg hop => ?_, ?_⟩
    · -- a publish makes no subscriptions
      rw [hop] at hsubs
      have hnil : [] = pre ++ sub :: post := hsubs
      simp at hnil
    · -- the sticky message of the topic is there because it was published on it
      rw [stickyAt_eq_replay hr, replay_eq_some] at ht
      obtain ⟨before, e, after, hevents, he, -⟩ := ht
      rw [writes_eq_some.mp he] at hevents
      rw [hrep.via, ← htopic, hevents]
      simp

theorem newPushes_of_adds {ps : List Push} (h : s'.pushes = s.pushes ++ ps) : newPushes s s' =
    ps.map fun p => (p, (s.messages.cells.get p.msg).any PsMsg.nonrecursive) := by
  rw [newPushes, h, List.drop_left]

end Step

/-- The event log of a push log. -/
def PushLogged.logged (e : PushLogged) : Logged := (e.1, e.2.1, e.2.2.1)

/-- The events of a push log, oldest first. -/
def eventsOf (h : List PushLogged) : List StickyEvent := h.filterMap fun e => e.2.2.1

theorem eventsOf_eq (h : List PushLogged) : eventsOf h = events (h.map PushLogged.logged) := by
  rw [eventsOf, events, List.filterMap_map]
  rfl

theorem pushStep_eq_some {s s' : Bus Q} {e : PushLogged} (h : pushStep s e.1 = some (e.2, s')) :
    step s e.1 = some (e.2.1, s') ∧ e.2.2.1 = stickyEvent s e.1 ∧ e.2.2.2 = newPushes s s' := by
  obtain ⟨op, r, ev, ps⟩ := e
  simp only [pushStep, Option.map_eq_some_iff, Prod.mk.injEq] at h
  obtain ⟨⟨r', s''⟩, hs, ⟨rfl, rfl, rfl⟩, rfl⟩ := h
  exact ⟨hs, rfl, rfl⟩

/-- In every run whose calls all keep to the topic, every push of a message with
`PS_FL_NONRECURSIVE` is for the topic on which the call publishes the message; or it sends
a new subscription a sticky message that was published on its very topic. A `ps_publish`
makes the former only. -/
theorem nonrecursive_stays {h : List PushLogged} {s : Bus Q}
    (hr : Run (fun s e s' => pushStep s e.1 = some (e.2, s') ∧ KeepsToTopic s e.1) Bus.init h s) :
    ∀ pre e, pre ++ [e] <+: h → ∀ p, (p, true) ∈ e.2.2.2 →
      (∃ b, e.2.2.1 = some (.publish p.msg p.via b)) ∨
        (∀ msg, e.1 ≠ .publish msg) ∧ .publish p.msg p.via true ∈ eventsOf pre := by
  suffices hall : Bus.init.Logs (h.map PushLogged.logged) s ∧ ∀ pre e, pre ++ [e] <+: h →
      ∀ p, (p, true) ∈ e.2.2.2 → (∃ b, e.2.2.1 = some (.publish p.msg p.via b)) ∨
        (∀ msg, e.1 ≠ .publish msg) ∧ .publish p.msg p.via true ∈ eventsOf pre from hall.2
  induction hr with
  | nil =>
    refine ⟨.nil, fun pre e hpre => ?_⟩
    have := List.prefix_nil.mp hpre
    simp at this
  | @snoc h s s' e _ hstep ih =>
    obtain ⟨hlogs, hold⟩ := ih
    obtain ⟨⟨hs, hevent, hpushes⟩, hk⟩ := And.imp_left pushStep_eq_some hstep
    refine ⟨?_, fun pre e' hpre p hp => ?_⟩
    · rw [List.map_append]
      exact hlogs.snoc (logStep_eq_some.mpr ⟨hs, hevent⟩)
    · rcases List.prefix_concat_iff.mp hpre with heq | hpre
      · obtain ⟨rfl, hlast⟩ := List.append_inj' heq rfl
        obtain rfl := List.singleton_inj.mp hlast
        obtain ⟨ps, hps, horigin⟩ := step_adds (Bus.Logs.ok hlogs) hs
        rw [hpushes, newPushes_of_adds hps] at hp
        obtain ⟨q, hq, heq⟩ := List.mem_map.mp hp
        obtain ⟨rfl, hflag⟩ := Prod.mk.inj heq
        obtain ⟨m, hm, hn⟩ : ∃ m, s.messages.cells.get q.msg = some m ∧ m.nonrecursive = true := by
          cases hm : s.messages.cells.get q.msg with
          | none =>
            rw [hm] at hflag
            cases hflag
          | some m =>
            rw [hm] at hflag
            exact ⟨m, rfl, hflag⟩
        rw [hevent, eventsOf_eq]
        exact (horigin q hq).published hlogs hk hm hn
      · exact hold pre e' hpre p hp

/-- A sticky message with the flag, and subscribers of its topic and of the one above: one
from before the publish and one that is sent the message when it subscribes. -/
theorem nonrecursive_stays_exact : ∃ (h : List PushLogged) (s : Bus Bucket.Queue),
    Run (fun s e s' => pushStep s e.1 = some (e.2, s') ∧ KeepsToTopic s e.1) Bus.init h s ∧
    h.map (fun e => e.2.2.2) = [[], [], [(⟨0, "a.b".toList, 0, 0, .ok⟩, true)],
      [(⟨1, "a.b".toList, 0, 0, .ok⟩, true)]] ∧
    ∀ pre e, pre ++ [e] <+: h → ∀ p, (p, true) ∈ e.2.2.2 →
      (∃ b, e.2.2.1 = some (.publish p.msg p.via b)) ∨
        (∀ msg, e.1 ≠ .publish msg) ∧ .publish p.msg p.via true ∈ eventsOf pre := by
  have hkeeps := run_of_exec_all (f := pushStep (Q := Bucket.Queue)) (P := KeepsToTopic)
    (s := Bus.init)
    (l := [.newSubscriber 2 (some ["a".toList, "a.b".toList]),
      .newMsg (some "a.b".toList) 0x803 .nil, .publish (some 0),
      .newSubscriber 2 (some ["a".toList, "a.b".toList])])
    (k := [(.subscriber 0, none, []), (.msg (some 0), none, []),
      (.int 1, some (.publish 0 "a.b".toList true), [(⟨0, "a.b".toList, 0, 0, .ok⟩, true)]),
      (.subscriber 1, none, [(⟨1, "a.b".toList, 0, 0, .ok⟩, true)])]) rfl
    fun s op hop pre sub post hsubs _ _ _ hchild => ?_
  · exact ⟨_, _, hkeeps, rfl, nonrecursive_stays hkeeps⟩
  · -- no subscription of the run asks for the messages below its topic
    have hmem : sub ∈ (requested s op).2 := by simp [hsubs]
    simp only [List.mem_cons, List.not_mem_nil, or_false] at hop
    have htopics : sub ∈ ["a".toList, "a.b".toList].map fun x => (x, none) := by
      rcases hop with rfl | rfl | rfl | rfl
      · exact hmem
      · cases hmem
      · cases hmem
      · exact hmem
    simp only [List.map_cons, List.map_nil, List.mem_cons, List.not_mem_nil, or_false] at htopics
    rcases htopics with rfl | rfl <;> simp [subFlags, flagText, noSubFlags] at hchild

/-- The message is published on `foo.bar` only, with the flag and as a sticky one, and
a later subscription to `foo` with `child_sticky` puts it into the queue. -/
theorem nonrecursive_strays : ∃ (h : List PushLogged) (s : Bus Bucket.Queue),
    Run (fun s e s' => pushStep s e.1 = some (e.2, s')) Bus.init h s ∧
    h.map (fun e => e.1) = [.newMsg (some "foo.bar".toList) 0x803 .nil, .publish (some 0),
      .newSubscriber 1 none, .subscribe 0 "foo S".toList] ∧
    h.map (fun e => e.2.2.2) = [[], [], [], [(⟨0, "foo".toList, 0, 0, .ok⟩, true)]] ∧
    eventsOf h = [.publish 0 "foo.bar".toList true] ∧
    (queuesOf s.subscribers 0).map IdleQueue.items = some [0] := by
  have hrun := run_of_exec (f := pushStep (Q := Bucket.Queue)) (s := Bus.init)
    (l := [.newMsg (some "foo.bar".toList) 0x803 .nil, .publish (some 0),
      .newSubscriber 1 none, .subscribe 0 "foo S".toList]) rfl
  exact ⟨_, _, hrun, rfl, rfl, rfl, rfl⟩

end PubSub
