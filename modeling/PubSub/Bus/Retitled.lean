import PubSub.Bus.Publish
import PubSub.Lib.InStep

/-! `ps_publish` reads the topic of its message once, up to the first space. With another
text after the space it runs in step, and what it leaves differs in that text only. -/

namespace PubSub

open Lib

variable {Q : Type → Type} [PsQueue Q] [LawfulPsQueue Q]

/-- The messages with another topic of `msg`. -/
def Messages.retitle (ms : Messages) (msg : MsgId) (topic : Option Str) : Messages :=
  { ms with cells := ms.cells.modify msg fun m => { m with topic := topic } }

def Bus.retitle (s : Bus Q) (msg : MsgId) (topic : Option Str) : Bus Q :=
  { s with messages := s.messages.retitle msg topic }

section Messages
variable {ms : Messages} {msg i : MsgId} {topic : Option Str} {m : PsMsg}

theorem get_retitle (ms : Messages) (msg i : MsgId) (topic : Option Str) :
    (ms.retitle msg topic).cells.get i =
      (ms.cells.get i).map fun m => if i = msg then { m with topic := topic } else m := by
  rw [Messages.retitle, Cells.get_modify]
  by_cases hi : i = msg
  · simp [hi]
  · simp [hi]

theorem psRefMsg_retitle (ms : Messages) (msg : MsgId) (topic : Option Str) (o : Option MsgId) :
    psRefMsg (ms.retitle msg topic) o = (psRefMsg ms o).map fun ms => ms.retitle msg topic := by
  cases o with
  | none => rfl
  | some i =>
    rw [psRefMsg, psRefMsg, get_retitle]
    cases ms.cells.get i with
    | none => rfl
    | some m =>
      have href : (if i = msg then { m with topic := topic } else m).ref = m.ref := by split <;> rfl
      simp only [Option.map_some, Option.bind_eq_bind, Option.bind_some, href, Messages.retitle]
      have hcomm := Cells.modify_comm ms.cells i msg (f := fun m : PsMsg => { m with ref := m.ref + 1 })
        (g := fun m => { m with topic := topic }) fun _ => rfl
      rw [hcomm]

theorem psUnrefMsg_retitle (ms : Messages) (msg : MsgId) (topic : Option Str) (o : Option MsgId) :
    psUnrefMsg (ms.retitle msg topic) o = (psUnrefMsg ms o).map fun ms => ms.retitle msg topic := by
  cases o with
  | none => rfl
  | some i =>
    rw [psUnrefMsg, psUnrefMsg, get_retitle]
    cases ms.cells.get i with
    | none => rfl
    | some m =>
      have href : (if i = msg then { m with topic := topic } else m).ref = m.ref := by split <;> rfl
      simp only [Option.map_some, Option.bind_eq_bind, Option.bind_some, href, Messages.retitle]
      split
      · rw [Cells.free_modify_comm]
        rfl
      · have hcomm := Cells.modify_comm ms.cells i msg
          (f := fun m : PsMsg => { m with ref := m.ref - 1 }) (g := fun m => { m with topic := topic })
          fun _ => rfl
        rw [hcomm]
        rfl

end Messages

/-! ### In step -/

/-- The same state with another topic of `msg`. -/
def Retitled (msg : MsgId) (topic : Option Str) (s t : Bus Q) : Prop := t = s.retitle msg topic

namespace Retitled
variable {s t : Bus Q} {msg i : MsgId} {title : Option Str} {topic : Str} {ret : ℕ}

/-- A step on the messages that another topic does not disturb. -/
theorem onMessages {f : Messages → Option Messages}
    (hf : ∀ ms, f (ms.retitle msg title) = (f ms).map fun ms => ms.retitle msg title) (ms : Messages) :
    InStep (fun a b => b = a.retitle msg title) (f ms) (f (ms.retitle msg title)) := by
  rw [hf]
  cases f ms with
  | none => exact .none
  | some ms => exact .some rfl

theorem ref (ms : Messages) (o : Option MsgId) :
    InStep (fun a b => b = a.retitle msg title) (psRefMsg ms o) (psRefMsg (ms.retitle msg title) o) :=
  onMessages (f := fun ms => psRefMsg ms o) (fun ms => psRefMsg_retitle ms msg title o) ms

theorem unref (ms : Messages) (o : Option MsgId) :
    InStep (fun a b => b = a.retitle msg title) (psUnrefMsg ms o)
      (psUnrefMsg (ms.retitle msg title) o) :=
  onMessages (f := fun ms => psUnrefMsg ms o) (fun ms => psUnrefMsg_retitle ms msg title o) ms

/-- What is read of a message, but for its topic. -/
theorem get (ms : Messages) (i : MsgId) :
    InStep (fun a b : PsMsg => b.sticky = a.sticky ∧ b.nonrecursive = a.nonrecursive)
      (ms.cells.get i) ((ms.retitle msg title).cells.get i) := by
  rw [get_retitle]
  cases ms.cells.get i with
  | none => exact .none
  | some m =>
    refine .some ?_
    split
    · exact ⟨rfl, rfl⟩
    · exact ⟨rfl, rfl⟩

theorem pushSubscriberQueue {su : SubId} {via : Str} {p : UInt8} (h : Retitled msg title s t) :
    InStep (Both (Retitled msg title)) (pushSubscriberQueue s su via i p)
      (pushSubscriberQueue t su via i p) := by
  subst h
  refine (ref s.messages (some i)).bind ?_
  rintro ms _ rfl
  refine .read fun S _ => .read fun y _ => (unref ms y.2.1).bind ?_
  obtain ⟨ret, evicted, q⟩ := y
  rintro ms₂ _ rfl
  cases ret with
  | ok => exact .some ⟨rfl, rfl⟩
  | eoverflow => exact .some ⟨rfl, rfl⟩
  | efull =>
    refine (unref ms₂ (some i)).bind ?_
    rintro ms₃ _ rfl
    exact .some ⟨rfl, rfl⟩

theorem deliver {via : Str} {sls : List SubscriberList} (h : Retitled msg title s t) :
    InStep (Both (Retitled msg title)) (deliver i via sls ret s) (deliver i via sls ret t) := by
  induction sls generalizing ret s t with
  | nil => exact .some ⟨rfl, h⟩
  | cons sl sls ih =>
    have hwaiting : psWaiting t sl.su = psWaiting s sl.su := by
      subst h
      rfl
    rw [PubSub.deliver, PubSub.deliver, hwaiting]
    refine .read fun w _ => .ite (fun _ => ih h) fun _ => h.pushSubscriberQueue.bind ?_
    rintro ⟨r, s'⟩ ⟨_, t'⟩ ⟨rfl, h'⟩
    exact ih h'

theorem deliverAt {tm : Option TopicId} (h : Retitled msg title s t) :
    InStep (Both (Retitled msg title)) (deliverAt i topic tm ret s) (deliverAt i topic tm ret t) := by
  cases tm with
  | none => exact .some ⟨rfl, h⟩
  | some tm =>
    have hmap : t.topicMap = s.topicMap := by
      subst h
      rfl
    rw [PubSub.deliverAt, PubSub.deliverAt, hmap]
    exact .read fun tp _ => h.deliver

theorem updateSticky {tm : Option TopicId} (h : Retitled msg title s t) :
    InStep (Both (Retitled msg title)) (updateSticky s i topic tm) (updateSticky t i topic tm) := by
  subst h
  unfold PubSub.updateSticky
  refine (get s.messages i).bind fun m m' hm => ?_
  rw [hm.1]
  refine .ite (fun _ => ?_) fun _ => ?_
  · have hset : ∀ (tm : TopicId) (topicMap : Cells TopicMap), InStep (Both (Retitled msg title))
        ((topicMap.get tm).bind fun t => (psUnrefMsg s.messages t.sticky).bind fun ms =>
          (psRefMsg ms (some i)).bind fun ms => some (some tm, { s with
            messages := ms, topicMap := topicMap.modify tm fun _ => { t with sticky := some i } }))
        ((topicMap.get tm).bind fun t =>
          (psUnrefMsg (s.messages.retitle msg title) t.sticky).bind fun ms =>
          (psRefMsg ms (some i)).bind fun ms => some (some tm, { s with
            messages := ms, topicMap := topicMap.modify tm fun _ => { t with sticky := some i } })) := by
      intro tm topicMap
      refine .read fun t _ => (unref s.messages t.sticky).bind ?_
      rintro ms _ rfl
      refine (ref ms (some i)).bind ?_
      rintro ms₂ _ rfl
      exact .some ⟨rfl, rfl⟩
    cases tm with
    | none => exact hset _ _
    | some tm => exact hset tm s.topicMap
  · cases tm with
    | none => exact .some ⟨rfl, rfl⟩
    | some tm =>
      refine .read fun t _ => ?_
      obtain ⟨name, sls, sticky⟩ := t
      cases sticky with
      | none => exact .some ⟨rfl, rfl⟩
      | some old =>
        refine (unref s.messages (some old)).bind ?_
        rintro ms _ rfl
        exact .read fun y _ => .some ⟨rfl, rfl⟩

theorem publishLoop {fuel : ℕ} {first : Bool} (h : Retitled msg title s t) :
    InStep (Both (Retitled msg title)) (publishLoop i fuel first topic ret s)
      (publishLoop i fuel first topic ret t) := by
  induction fuel generalizing first topic ret s t with
  | zero => exact .none
  | succ fuel ih =>
    have hmap : t.topicMap = s.topicMap := by
      subst h
      rfl
    rw [publishLoop_succ, publishLoop_succ, hmap]
    have hfirst : InStep (Both (Retitled msg title))
        (if first then PubSub.updateSticky s i topic (fetchTopic s.topicMap topic)
          else some (fetchTopic s.topicMap topic, s))
        (if first then PubSub.updateSticky t i topic (fetchTopic s.topicMap topic)
          else some (fetchTopic s.topicMap topic, t)) :=
      .ite (fun _ => h.updateSticky) fun _ => .some ⟨rfl, h⟩
    refine hfirst.bind ?_
    rintro ⟨tm, s₁⟩ ⟨_, t₁⟩ ⟨rfl, h₁⟩
    refine h₁.deliverAt.bind ?_
    rintro ⟨n, s₂⟩ ⟨_, t₂⟩ ⟨rfl, h₂⟩
    have hmsgs : t₂.messages = s₂.messages.retitle msg title := congrArg Bus.messages h₂
    dsimp only
    rw [hmsgs]
    refine (get s₂.messages i).bind fun m m' hm => ?_
    rw [hm.2]
    exact .ite (fun _ => .some ⟨rfl, h₂⟩) fun _ => .ite (fun _ => .some ⟨rfl, h₂⟩) fun _ => ih h₂

/-- A publish of the message under a topic with the same text before the space. -/
theorem publish {m : PsMsg} {text text' : Str} (hm : s.messages.cells.get msg = some m)
    (ht : m.topic = some text) (hcut : cutFlags text' = cutFlags text) :
    InStep (Both (Retitled msg (some text'))) (psPublish s (some msg))
      (psPublish (s.retitle msg (some text')) (some msg)) := by
  have hm' : (s.retitle msg (some text')).messages.cells.get msg = some { m with topic := some text' } := by
    rw [Bus.retitle, get_retitle, hm, Option.map_some, if_pos rfl]
  simp only [psPublish, hm, hm', ht, hcut, Option.bind_eq_bind, Option.bind_some]
  refine (publishLoop (s := s) rfl).bind ?_
  rintro ⟨n, s'⟩ ⟨_, _⟩ ⟨rfl, rfl⟩
  refine (unref s'.messages (some msg)).bind ?_
  rintro ms _ rfl
  exact .some ⟨rfl, rfl⟩

end Retitled

end PubSub
