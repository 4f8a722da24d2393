import PubSub.Alike
import PubSub.Exchange.Machine

/-! The bus seen as an exchange, and the calls on one queue, one message or one
topic: each does to the exchange what the call of the same name does there. -/

namespace PubSub

open Lib Bus

variable {Q : Type → Type} [PsQueue Q] [LawfulPsQueue Q] [OrderedPsQueue Q]

/-- A subscriber as the inbox that its user sees. -/
def PsSubscriber.inbox (S : PsSubscriber Q) : Inbox where
  size := S.q.capacity
  waiting := S.q.ranked
  fits := S.q.length_ranked_le
  sorted := S.q.ranked_sorted
  lost := S.overflow
  newMsgCb := S.newMsgCb
  nonEmptyCb := S.nonEmptyCb

/-- The messages that exist are letters, in the order in which they were written. -/
structure Letters (ms : Messages) (letters : List PsMsg) : Prop where
  next : letters.length = ms.cells.next
  content : ∀ i m, ms.cells.get i = some m → letters[i]? = some m.body

/-- The exchange that the bus implements. A letter outlives its message. -/
structure Abstracts (s : Bus Q) (x : Exchange) : Prop where
  board : x.board.topics = s.topicMap.values
  letters : Letters s.messages x.letters
  inboxes : x.inboxes = s.subscribers.map PsSubscriber.inbox
  calls : x.calls = s.uuidCtr
  callbacks : x.callbacks = s.callbacks

theorem Abstracts.start : Abstracts (Bus.init : Bus Q) .start where
  board := rfl
  letters := ⟨rfl, fun _ _ h => nomatch h⟩
  inboxes := rfl
  calls := rfl
  callbacks := rfl

/-! ### Letters -/

namespace Letters
variable {ms ms' : Messages} {letters : List PsMsg} {msg : MsgId} {m : PsMsg}

theorem sameContent (h : Letters ms letters) (hs : ms.SameContent ms') : Letters ms' letters := by
  refine ⟨h.next.trans hs.next.symm, fun i m' hm' => ?_⟩
  obtain ⟨m, hm, heq⟩ := hs.content i m' hm'
  rw [h.content i m hm, heq]
  rfl

theorem alloc (h : Letters ms letters) (m : PsMsg) :
    Letters (allocMsg ms m).2 (letters ++ [m.body]) := by
  have hlen : (letters ++ [m.body]).length = ms.cells.next + 1 := by
    rw [List.length_append, List.length_singleton, h.next]
  refine ⟨hlen, fun i m' hi => ?_⟩
  simp only [allocMsg, Cells.get_alloc] at hi
  split at hi
  case isTrue heq =>
    cases hi
    rw [heq, ← h.next, List.getElem?_concat_length]
  case isFalse =>
    have hold := h.content i m' hi
    rw [List.getElem?_append_left (List.getElem?_eq_some_iff.mp hold).1, hold]

theorem modify (h : Letters ms letters) (hm : ms.cells.get msg = some m) (m' : PsMsg) :
    Letters { ms with cells := ms.cells.modify msg fun _ => m' } (letters.set msg m'.body) := by
  have hlt := (List.getElem?_eq_some_iff.mp (h.content msg m hm)).1
  refine ⟨by rw [List.length_set]; exact h.next, fun i k hi => ?_⟩
  simp only [Cells.get_modify] at hi
  split at hi
  case isTrue heq =>
    rw [heq, hm] at hi
    cases hi
    rw [heq, List.getElem?_set_self hlt]
  case isFalse hne =>
    rw [List.getElem?_set_ne (Ne.symm hne)]
    exact h.content i k hi

theorem lt (h : Letters ms letters) (hm : ms.cells.get msg = some m) : msg < letters.length :=
  (List.getElem?_eq_some_iff.mp (h.content msg m hm)).1

end Letters

namespace Abstracts
variable {s s' : Bus Q} {x : Exchange} {su : SubId} {S : PsSubscriber Q} {msg : MsgId}

/-- A step that moves references only. -/
theorem of_messages {ms : Messages} (h : Abstracts s x) (hs : s.messages.SameContent ms) :
    Abstracts { s with messages := ms } x :=
  ⟨h.board, h.letters.sameContent hs, h.inboxes, h.calls, h.callbacks⟩

theorem known {m : PsMsg} (h : Abstracts s x) (hm : s.messages.cells.get msg = some m) :
    x.known msg = true := decide_eq_true (h.letters.lt hm)

theorem addLetter (h : Abstracts s x) (m : PsMsg) :
    (x.addLetter m.body).1 = (allocMsg s.messages m).1 ∧
      Abstracts { s with messages := (allocMsg s.messages m).2 } (x.addLetter m.body).2 :=
  ⟨h.letters.next, h.board, h.letters.alloc m, h.inboxes, h.calls, h.callbacks⟩

theorem editLetter {m : PsMsg} {f : PsMsg → Option PsMsg} (h : Abstracts s x) (m' : PsMsg)
    (hm : s.messages.cells.get msg = some m) (hf : f m.body = some m'.body) :
    ∃ x', x.editLetter msg f = some x' ∧ Abstracts { s with
      messages := { s.messages with cells := s.messages.cells.modify msg fun _ => m' } } x' := by
  refine ⟨{ x with letters := x.letters.set msg m'.body }, ?_, h.board, h.letters.modify hm m',
    h.inboxes, h.calls, h.callbacks⟩
  simp only [Exchange.editLetter, h.letters.content msg m hm, hf, Option.bind_eq_bind,
    Option.bind_some]

theorem newMsg {topic : Option Str} {flags : UInt32} {args : PsValue} {r : Option MsgId}
    {ms : Messages} (h : Abstracts s x) (hn : psNewMsg s.messages topic flags args = some (r, ms)) :
    ∃ x', x.newMsg topic flags args = some (r, x') ∧ Abstracts { s with messages := ms } x' := by
  cases topic with
  | none =>
    cases hn
    exact ⟨x, rfl, h⟩
  | some topic =>
    obtain ⟨m, hm, heq⟩ := Option.bind_eq_some_iff.mp hn
    cases heq
    obtain ⟨hid, ha⟩ := h.addLetter m
    have hbody := psMsgSetVvalue_body ⟨1, some topic, none, flags, 0, .nil⟩ flags args
    rw [hm, Option.map_some] at hbody
    refine ⟨(x.addLetter m.body).2, ?_, ha⟩
    have hset : psMsgSetVvalue ⟨0, some topic, none, flags, 0, .nil⟩ flags args = some m.body :=
      hbody.symm
    simp only [Exchange.newMsg, hset, Option.bind_eq_bind, Option.bind_some, Prod.map, id, hid]
    rfl

theorem dupMsg {r : MsgId} {ms : Messages} (h : Abstracts s x)
    (hd : psDupMsg s.messages msg = some (r, ms)) :
    ∃ x', x.dupMsg msg = some (r, x') ∧ Abstracts { s with messages := ms } x' := by
  obtain ⟨m, hm, heq⟩ := Option.bind_eq_some_iff.mp hd
  cases heq
  obtain ⟨hid, ha⟩ := h.addLetter { m with ref := 1, value := dupValue m }
  refine ⟨_, ?_, ha⟩
  simp only [Exchange.dupMsg, h.letters.content msg m hm, Option.bind_eq_bind, Option.bind_some]
  exact congrArg some (Prod.ext hid rfl)

/-! ### Inboxes -/

theorem inbox (h : Abstracts s x) (hS : s.subscribers.get su = some S) :
    x.inboxes.get su = some S.inbox := by
  rw [h.inboxes, Cells.get_map, hS, Option.map_some]

/-- A change of one subscriber. -/
theorem setInbox (su : SubId) {S' : PsSubscriber Q} {B : Inbox} (h : Abstracts s x)
    (hB : S'.inbox = B) :
    Abstracts { s with subscribers := s.subscribers.modify su fun _ => S' } (x.setInbox su B) := by
  refine ⟨h.board, h.letters, ?_, h.calls, h.callbacks⟩
  rw [Exchange.setInbox, h.inboxes, Cells.map_modify, hB]

theorem get {timeout : Int64} {r : Option MsgId} (h : Abstracts s x)
    (hg : psGet s su timeout = some (r, s')) :
    ∃ x', x.get su timeout = some (r, x') ∧ Abstracts s' x' := by
  obtain ⟨S, q, hS, hq, rfl⟩ := psGet_eq_some.mp hg
  obtain ⟨hr, htail, hcap⟩ := IdleQueue.pull_ranked hq
  have hwaiting : S.inbox.waiting = S.q.ranked := rfl
  simp only [Exchange.get, h.inbox hS, Option.bind_eq_bind, Option.bind_some, hwaiting]
  cases hl : S.q.ranked with
  | nil =>
    rw [hl] at hr htail
    refine ⟨x, by rw [hr, if_neg (IdleQueue.pull_ends hq hl)]; rfl, h.board, h.letters, ?_, h.calls,
      h.callbacks⟩
    have hsame : PsSubscriber.inbox { S with q := q } = S.inbox :=
      Inbox.ext hcap (htail.trans hl.symm) rfl rfl rfl
    rw [h.inboxes, Bus.modifySubscriber, Cells.map_modify_same _ _ hS hsame]
  | cons e l =>
    rw [hl] at hr
    exact ⟨x.setInbox su S.inbox.take, by rw [hr]; rfl,
      h.setInbox su (Inbox.ext hcap htail rfl rfl rfl)⟩

theorem flush {n : ℕ} (h : Abstracts s x) (hf : psFlush s su = some (n, s')) :
    ∃ x', x.flush su = some (n, x') ∧ Abstracts s' x' := by
  obtain ⟨S, q, ms, hS, hfl⟩ := psFlush_flushed hf
  have hempty : q.ranked = [] := by
    rw [← List.length_eq_zero_iff, IdleQueue.length_ranked, hfl.empty, List.length_nil]
  refine ⟨x.setInbox su S.inbox.clear, ?_, ?_⟩
  · rw [Exchange.flush, h.inbox hS, hfl.count, ← S.q.length_ranked]
    rfl
  · rw [hfl.state]
    exact (h.of_messages hfl.content).setInbox su (Inbox.ext hfl.capacity hempty rfl rfl rfl)

theorem waiting {n : ℕ} (h : Abstracts s x) (hw : psWaiting s su = some n) :
    x.waiting su = some n := by
  obtain ⟨S, hS, heq⟩ := Option.bind_eq_some_iff.mp hw
  cases heq
  rw [Exchange.waiting, h.inbox hS, S.q.waiting_eq, ← S.q.length_ranked]
  rfl

theorem overflow {r : ℤ} (h : Abstracts s x) (ho : psOverflow s su = some (r, s')) :
    ∃ x', x.overflow su = some (r, x') ∧ Abstracts s' x' := by
  obtain ⟨S, hS, rfl, rfl⟩ := psOverflow_eq_some ho
  refine ⟨x.setInbox su { S.inbox with lost := 0 }, ?_, h.setInbox su rfl⟩
  rw [Exchange.overflow, h.inbox hS]
  rfl

theorem setNewMsgCb {cb : Option Callback} (h : Abstracts s x)
    (hs : psSetNewMsgCb s su cb = some s') :
    ∃ x', x.setNewMsgCb su cb = some x' ∧ Abstracts s' x' := by
  obtain ⟨S, hS, heq⟩ := Option.bind_eq_some_iff.mp hs
  cases heq
  have hinbox : PsSubscriber.inbox { S with newMsgCb := cb } = { S.inbox with newMsgCb := cb } := rfl
  have hset := h.setInbox su hinbox
  refine ⟨{ x.setInbox su { S.inbox with newMsgCb := cb } with
    callbacks := x.callbacks ++ installCallbacks su .newMsg cb S.inbox.waiting.length }, ?_,
    hset.board, hset.letters, hset.inboxes, hset.calls, ?_⟩
  · rw [Exchange.setNewMsgCb, h.inbox hS]
    rfl
  · rw [h.callbacks, S.q.waiting_eq, ← S.q.length_ranked]
    rfl

theorem setNonEmptyCb {cb : Option Callback} (h : Abstracts s x)
    (hs : psSetNonEmptyCb s su cb = some s') :
    ∃ x', x.setNonEmptyCb su cb = some x' ∧ Abstracts s' x' := by
  obtain ⟨S, hS, heq⟩ := Option.bind_eq_some_iff.mp hs
  cases heq
  have hinbox : PsSubscriber.inbox { S with nonEmptyCb := cb } = { S.inbox with nonEmptyCb := cb } := rfl
  have hset := h.setInbox su hinbox
  refine ⟨{ x.setInbox su { S.inbox with nonEmptyCb := cb } with
    callbacks := x.callbacks ++ installCallbacks su .nonEmpty cb S.inbox.waiting.length }, ?_,
    hset.board, hset.letters, hset.inboxes, hset.calls, ?_⟩
  · rw [Exchange.setNonEmptyCb, h.inbox hS]
    rfl
  · rw [h.callbacks, S.q.waiting_eq, ← S.q.length_ranked]
    rfl

end Abstracts

end PubSub
