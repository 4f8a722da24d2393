import PubSub.StickyStore

/-! `ps_call` step by step, so that the steps of several calls, those of other
clients and timeouts come in any order. -/

namespace PubSub

open Lib Bus

variable {Q : Type → Type} [PsQueue Q] [LawfulPsQueue Q]

/-! ### The `rtopic` of a call -/

/-- What the `rtopic` of every call starts with. -/
def callPrefix : Str := "$r.".toList

section CallTopic
variable {a b n : UInt32} {t : Str}

theorem callTopic_eq (n : UInt32) : callTopic n = callPrefix ++ Nat.toDigits 10 n.toNat := rfl

theorem not_mem_toDigits {n : ℕ} {c : Char} (hc : c.isDigit = false) : c ∉ Nat.toDigits 10 n := by
  intro h
  have hdigit := Nat.isDigit_of_mem_toDigits (by decide) (by decide) h
  rw [hc] at hdigit
  cases hdigit

theorem callTopic_injective (h : callTopic a = callTopic b) : a = b := by
  rw [callTopic_eq, callTopic_eq, List.append_cancel_left_eq] at h
  have hval := congrArg (fun l => Nat.ofDigitChars 10 l 0) h
  simp only [Nat.ofDigitChars_ten_toDigits] at hval
  exact UInt32.toNat_inj.mp hval

theorem space_not_mem_callTopic (n : UInt32) : ' ' ∉ callTopic n := by
  rw [callTopic_eq, List.mem_append, not_or]
  exact ⟨by decide, not_mem_toDigits (by decide)⟩

/-- The topics below the `rtopic` of a call, and itself, start with the prefix. -/
theorem callPrefix_of_isAncestor (h : IsAncestor '.' (callTopic n) t) : callPrefix <+: t := by
  have hself : callPrefix <+: callTopic n := List.prefix_append _ _
  rcases h with rfl | hnil | hpre
  · exact hself
  · rw [hnil] at hself
    exact absurd hself (by decide)
  · exact (hself.trans (List.prefix_append _ _)).trans hpre

/-- No call's `rtopic` is above another's: `$r.1` is a beginning of `$r.12`, but not
its parent. -/
theorem callTopic_isAncestor (h : IsAncestor '.' (callTopic a) (callTopic b)) : a = b := by
  rcases h with heq | hnil | hpre
  · exact callTopic_injective heq
  · rw [callTopic_eq, List.append_eq_nil_iff] at hnil
    exact absurd hnil.1 (by decide)
  · rw [callTopic_eq, callTopic_eq, List.append_assoc, List.prefix_append_right_inj] at hpre
    have hdot : '.' ∈ Nat.toDigits 10 b.toNat := hpre.subset (by simp)
    exact absurd hdot (not_mem_toDigits (by decide))

end CallTopic

/-! ### Calls under way -/

/-- How far a call has come, with what its local variables hold. -/
inductive Stage where
  | counted
  | addressed
  | subscribed (su : SubId)
  | waiting (su : SubId)
  | leaving (su : SubId) (retMsg : Option MsgId)
  | returned (retMsg : Option MsgId)
  deriving DecidableEq

structure Call where
  msg : MsgId
  timeout : Int64
  n : UInt32
  stage : Stage
  deriving DecidableEq

namespace Call

/-- The next line of `ps_call`. -/
def next (call : Call) : Option Op :=
  match call.stage with
  | .counted => some (.msgSetRtopic call.msg (some (callTopic call.n)))
  | .addressed => some (.newSubscriber 1 (some [callTopic call.n]))
  | .subscribed _ => some (.publish (some call.msg))
  | .waiting su => some (.get su call.timeout)
  | .leaving su _ => some (.freeSubscriber su)
  | .returned _ => none

/-- The call after its next line, which gave `r`. -/
def after (call : Call) (r : Ret) : Option Call :=
  match call.stage, r with
  | .counted, .unit => some { call with stage := .addressed }
  | .addressed, .subscriber su => some { call with stage := .subscribed su }
  | .subscribed su, .int n =>
    if n = 0 then some { call with stage := .leaving su none }
    else some { call with stage := .waiting su }
  | .waiting su, .msg retMsg => some { call with stage := .leaving su retMsg }
  | .leaving _ retMsg, .unit => some { call with stage := .returned retMsg }
  | _, _ => none

/-- The subscriber of a call, from its creation until it is freed. -/
def su (call : Call) : Option SubId :=
  match call.stage with
  | .subscribed su | .waiting su | .leaving su _ => some su
  | _ => none

/-- The message that a call has got. -/
def retMsg (call : Call) : Option MsgId :=
  match call.stage with
  | .leaving _ retMsg | .returned retMsg => retMsg
  | _ => none

end Call

/-- The program with the calls that clients have made, oldest first. -/
structure Calls (Q : Type → Type) [PsQueue Q] [LawfulPsQueue Q] where
  bus : Bus Q
  calls : List Call

/-- A client makes some other call, or starts a `ps_call`, or one goes on. -/
inductive Action where
  | client (op : Op)
  | start (msg : MsgId) (timeout : Int64)
  | advance (i : ℕ)

namespace Calls

def init : Calls Q := ⟨Bus.init, []⟩

/-- An action, with the event that it is. A call starts with its number. -/
def act (c : Calls Q) : Action → Option (Option StickyEvent × Calls Q)
  | .client op => (logStep c.bus op).map fun ((_, e), s) => (e, { c with bus := s })
  | .start msg timeout =>
    let s := { c.bus with uuidCtr := c.bus.uuidCtr + 1 }
    some (none, ⟨s, c.calls ++ [⟨msg, timeout, s.uuidCtr, .counted⟩]⟩)
  | .advance i => do
    let call ← c.calls[i]?
    let op ← call.next
    let ((r, e), s) ← logStep c.bus op
    let call ← call.after r
    some (e, ⟨s, c.calls.set i call⟩)

end Calls

/-- The subscriber that a client passes. -/
def Op.subscriber : Op → Option SubId
  | .freeSubscriber su | .setNewMsgCb su _ | .setNonEmptyCb su _ | .get su _ | .flush su
  | .waiting su | .overflow su | .numSubs su | .subscribe su _ | .subscribeFlags su _ _
  | .subscribeMany su _ | .unsubscribe su _ | .unsubscribeMany su _ | .unsubscribeAll su => some su
  | _ => none

namespace Calls

/-- No client knows the subscriber of a call, and all of `ps_call` is in the steps. -/
def permits (c : Calls Q) : Action → Bool
  | .client (.call _ _) => false
  | .client op => c.calls.all fun call => call.su.all fun su => op.subscriber ≠ some su
  | _ => true

/-- A publish on a topic with the prefix is on the `rtopic` of a call. -/
def answers (c : Calls Q) : Option StickyEvent → Bool
  | some (.publish _ topic _) =>
    !callPrefix.isPrefixOf topic || c.calls.any fun call => topic = callTopic call.n
  | _ => true

/-- An action of clients and responders that keep to the rules. -/
def step (c : Calls Q) (a : Action) : Option (Option StickyEvent × Calls Q) := do
  let (e, c') ← c.act a
  if c.permits a && c.answers e then some (e, c') else none

/-- The runs of any number of calls among any clients. -/
abbrev Runs (h : List (Action × Option StickyEvent)) (c : Calls Q) : Prop :=
  Run (fun c a c' => step c a.1 = some (a.2, c')) init h c

end Calls

/-! ### The steps make up `ps_call` -/

namespace Calls

/-- Actions lead from one state to another. -/
def Leads (c c' : Calls Q) : Prop :=
  ∃ h : List (Action × Option StickyEvent), Run (fun c a c' => act c a.1 = some (a.2, c')) c h c'

variable {c : Calls Q} {s s' : Bus Q} {calls : List Call} {call call' : Call} {op : Op} {r : Ret}

theorem leads_start (s : Bus Q) (calls : List Call) (msg : MsgId) (timeout : Int64) :
    Leads ⟨s, calls⟩ ⟨{ s with uuidCtr := s.uuidCtr + 1 },
      calls ++ [⟨msg, timeout, s.uuidCtr + 1, .counted⟩]⟩ := by
  refine ⟨[(.start msg timeout, none)], Run.single ?_⟩
  rfl

/-- The last call goes on. -/
theorem Leads.advance (hl : Leads c ⟨s, calls ++ [call]⟩) (hop : call.next = some op)
    (hs : PubSub.step s op = some (r, s')) (hafter : call.after r = some call') :
    Leads c ⟨s', calls ++ [call']⟩ := by
  obtain ⟨h, hr⟩ := hl
  refine ⟨_, hr.snoc (e := (.advance calls.length, stickyEvent s op)) ?_⟩
  simp [act, hop, logStep, hs, hafter]

/-- `ps_call` is its steps with nothing in between. -/
theorem leads_of_psCall {msg : MsgId} {timeout : Int64} {ret : Option MsgId}
    (h : psCall s msg timeout = some (ret, s')) :
    Leads ⟨s, calls⟩ ⟨s', calls ++ [⟨msg, timeout, s.uuidCtr + 1, .returned ret⟩]⟩ := by
  obtain ⟨s₁, s₂, s₃, s₄, su, n, hc⟩ := psCall_called h
  obtain ⟨ms, hms, rfl⟩ := hc.counter
  have hpublish : PubSub.step s₂ (.publish (some msg)) = some (.int n, s₃) := by
    rw [PubSub.step, hc.publish, Option.map_some]
  have hfree : PubSub.step s₄ (.freeSubscriber su) = some (.unit, s') := by
    rw [PubSub.step, hc.free, Option.map_some]
  have haddressed := (leads_start s calls msg timeout).advance rfl
    (by rw [PubSub.step, hms, Option.map_some]) rfl
  have hsubscribed := haddressed.advance rfl (by rw [PubSub.step, hc.new, Option.map_some]) rfl
  rcases hc.get with ⟨hn, rfl, rfl⟩ | ⟨hn, hget⟩
  · have hleaving : Leads ⟨s, calls⟩ ⟨s₄, calls ++
        [⟨msg, timeout, s.uuidCtr + 1, .leaving su none⟩]⟩ :=
      hsubscribed.advance rfl hpublish (by simp [Call.after, hn])
    exact hleaving.advance rfl hfree rfl
  · have hwaiting : Leads ⟨s, calls⟩ ⟨s₃, calls ++
        [⟨msg, timeout, s.uuidCtr + 1, .waiting su⟩]⟩ :=
      hsubscribed.advance rfl hpublish (by simp [Call.after, hn])
    have hleaving := hwaiting.advance rfl (by rw [PubSub.step, hget, Option.map_some]) rfl
    exact hleaving.advance rfl hfree rfl

end Calls

end PubSub
