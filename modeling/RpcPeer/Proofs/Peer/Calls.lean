import RpcPeer.Proofs.Peer.Tables

/-! What serving does to the tables of a peer. -/
namespace RpcPeer

def Message.isResponse : Message → Bool
  | response .. => true
  | _ => false

theorem Message.eq_response {m : Message} (h : m.isResponse = true) :
    ∃ id method o, m = .response id method o := by
  cases m with
  | response id method o => exact ⟨id, method, o, rfl⟩
  | request | notification => cases h

/-- How a call goes on: as its handler does, or to any end that a handler may come to. -/
inductive CallMove
  | run
  | settle (v : Verdict Payload)

/-- Why a call ends without a response. -/
inductive Silence
  /-- It had been cancelled. -/
  | cancelled
  /-- Its handler reported a cancellation that nobody had asked for. -/
  | withdrawn
  deriving DecidableEq

inductive Ending
  | silent (why : Silence)
  | answered (o : Outcome)

def Ending.responses (c : Call) : Ending → List Message
  | silent _ => []
  | answered o => [.response (some c.id) (some c.method) o]

def Ending.silence : Ending → List Silence
  | silent why => [why]
  | answered _ => []

namespace Call

/-- What stays the same as long as a call is in flight. -/
def identity (c : Call) : Nat × MessageId × String := (c.key, c.id, c.method)

def ending (policy : FaultPolicy) (c : Call) : Verdict Payload → Ending
  | .value v => .answered (.result v)
  | .fault .cancelled => .silent (if c.cancelled then .cancelled else .withdrawn)
  | .fault f => .answered (.error (policy c.method f).1)
  | .panic text =>
    .answered (.error (policy c.method (.other s!"handler panicked: {panicText text}" [])).1)

end Call

def Tables.finish (t : Tables) (c : Call) (e : Ending) : Tables :=
  { t.endCall c.key with
    outgoing := t.outgoing ++ if t.listening then e.responses c else [] }

namespace Peer

variable {p : Peer}

@[simp] theorem tables_closeUnheld (h : p.tables.owned = true) :
    p.closeUnheld.tables = p.tables := by
  rw [closeUnheld_of_owned h]

def activityOf (p : Peer) (c : Call) : Activity :=
  c.activity.getD (p.service.callRequest c.method c.params).2

def moveCall (p : Peer) (key : Nat) : CallMove → Peer
  | .run => p.runCall key
  | .settle v =>
    match p.calls.find? (·.key == key) with
    | none => p
    | some c => p.settle c v

/-- The call that a move ends, and how it ends. -/
def ending? (p : Peer) (key : Nat) (m : CallMove) : Option (Call × Ending) :=
  (p.calls.find? (·.key == key)).bind fun c =>
    match m with
    | .settle v => some (c, c.ending p.policy v)
    | .run =>
      if c.cancelled then some (c, .silent .cancelled)
      else
        match (p.activityOf c).resume false p.opened with
        | .done v => some (c, c.ending p.policy v)
        | _ => none

theorem tables_dropCall (h : p.owned = true) (c : Call) (s : Silence) :
    (p.dropCall c).tables = p.tables.finish c (.silent s) := by
  have ht : ((p.removeCall c.key).log .debug
      s!"Request {c.id.display} '{c.method}' was cancelled, no response sent").tables =
        p.tables.endCall c.key := rfl
  rw [dropCall, tables_closeUnheld (by rw [ht]; exact h), ht]
  simp [Tables.finish, Ending.responses, Tables.endCall]

theorem tables_failCall (h : p.owned = true) (c : Call) (f : Fault) :
    (p.failCall c f).tables = p.tables.finish c (.answered (.error (p.policy c.method f).1)) := by
  have ht : (((p.removeCall c.key).writeAll (p.policy c.method f).2).respond c.id c.method
      (.error (p.policy c.method f).1)).tables =
        p.tables.finish c (.answered (.error (p.policy c.method f).1)) := by
    rw [tables_respond, tables_writeAll]
    rfl
  rw [failCall, tables_closeUnheld (by rw [ht]; exact h), ht]

theorem tables_settle (h : p.owned = true) (c : Call) (v : Verdict Payload) :
    (p.settle c v).tables = p.tables.finish c (c.ending p.policy v) := by
  cases v with
  | value v =>
    have ht : ((p.removeCall c.key).respond c.id c.method (.result v)).tables =
        p.tables.finish c (.answered (.result v)) := tables_respond ..
    rw [settle, tables_closeUnheld (by rw [ht]; exact h), ht, Call.ending]
  | fault f =>
    cases f with
    | cancelled => exact tables_dropCall h c _
    | methodNotFound | invalidParams | response | other => exact tables_failCall h c _
  | panic text => exact tables_failCall h c _

/-- A call that is not cancelled does what its handler does next; calling the handler for the first
time shows in the journal only. -/
theorem runCall_of_not_cancelled {key : Nat} {c : Call} (hf : p.calls.find? (·.key == key) = some c)
    (hc : c.cancelled = false) :
    ∃ q : Peer, q.tables = p.tables ∧ q.policy = p.policy ∧ q.service = p.service ∧
      q.opened = p.opened ∧ p.runCall key =
      match (p.activityOf c).resume false p.opened with
      | .done v => q.settle c v
      | waiting => q.modifyCall key ({ · with activity := some waiting }) := by
  cases ha : c.activity with
  | some a =>
    refine ⟨p, rfl, rfl, rfl, rfl, ?_⟩
    simp only [runCall, hf, hc, activityOf, ha]
    rfl
  | none =>
    have hs : (p.startCall c).2.policy = p.policy ∧ (p.startCall c).2.service = p.service ∧
        (p.startCall c).2.opened = p.opened := by
      rw [startCall]
      rcases p.service.callRequest c.method c.params with ⟨_ | _, _⟩ <;> exact ⟨rfl, rfl, rfl⟩
    refine ⟨(p.startCall c).2, tables_startCall p c, hs.1, hs.2.1, hs.2.2, ?_⟩
    simp only [runCall, hf, hc, activityOf, ha, hs.2.2]
    rfl

theorem tables_moveCall_of_some (h : p.owned = true) {key : Nat} {m : CallMove} {c : Call}
    {e : Ending} (he : p.ending? key m = some (c, e)) :
    (p.moveCall key m).tables = p.tables.finish c e := by
  obtain ⟨d, hd, he⟩ := Option.bind_eq_some_iff.mp he
  cases m with
  | settle v =>
    obtain ⟨rfl, rfl⟩ := Prod.mk.inj (Option.some.inj he)
    simp only [moveCall, hd]
    exact tables_settle h d v
  | run =>
    dsimp only at he
    cases hc : d.cancelled with
    | true =>
      rw [if_pos hc] at he
      obtain ⟨rfl, rfl⟩ := Prod.mk.inj (Option.some.inj he)
      simp only [moveCall, runCall, hd, hc]
      exact tables_dropCall h d _
    | false =>
      obtain ⟨q, hqt, hqp, -, -, hr⟩ := runCall_of_not_cancelled hd hc
      rw [if_neg (by simp [hc])] at he
      rw [moveCall, hr]
      split at he
      next v hv =>
        obtain ⟨rfl, rfl⟩ := Prod.mk.inj (Option.some.inj he)
        rw [← hqt, ← hqp]
        exact tables_settle ((congrArg Tables.owned hqt).trans h) d v
      next => exact absurd he (by simp)

/-- A move that ends no call keeps the identity of every call and what is known of its
cancellation. -/
theorem tables_moveCall_of_none {key : Nat} {m : CallMove} (he : p.ending? key m = none) :
    ∃ f : Call → Call, (∀ c, (f c).identity = c.identity ∧ (f c).cancelled = c.cancelled) ∧
      (p.moveCall key m).tables = { p.tables with calls := p.calls.map f } := by
  have hid : p.tables = { p.tables with calls := p.calls.map id } := by
    rw [List.map_id]
    rfl
  cases hf : p.calls.find? (·.key == key) with
  | none =>
    refine ⟨id, fun c => ⟨rfl, rfl⟩, ?_⟩
    rw [← hid]
    cases m <;> simp [moveCall, runCall, hf]
  | some c =>
    cases m with
    | settle v => simp [ending?, hf] at he
    | run =>
      cases hc : c.cancelled with
      | true => simp [ending?, hf, hc] at he
      | false =>
        obtain ⟨q, hqt, -, -, -, hr⟩ := runCall_of_not_cancelled hf hc
        simp only [ending?, hf, Option.bind_some, hc, Bool.false_eq_true, if_false] at he
        rw [moveCall, hr]
        split at he
        next => exact absurd he (by simp)
        next =>
          refine ⟨fun d => if d.key == key then
            { d with activity := some ((p.activityOf c).resume false p.opened) } else d, ?_, ?_⟩
          · intro d
            dsimp only
            split <;> exact ⟨rfl, rfl⟩
          · rw [tables_modifyCall, hqt, show q.calls = p.calls from congrArg Tables.calls hqt]

/-- A call that goes on touches the calls only, and writes nothing but responses. -/
theorem frame_moveCall (h : p.owned = true) (key : Nat) (m : CallMove) :
    ∃ ms cs, (p.moveCall key m).tables =
        { p.tables with outgoing := p.outgoing ++ ms, calls := cs } ∧
      ∀ x ∈ ms, x.isResponse = true := by
  cases he : p.ending? key m with
  | none =>
    obtain ⟨f, -, ht⟩ := tables_moveCall_of_none he
    refine ⟨[], p.calls.map f, ?_, by simp⟩
    rw [ht, List.append_nil]
    rfl
  | some ce =>
    obtain ⟨c, e⟩ := ce
    refine ⟨_, _, tables_moveCall_of_some h he, fun x hx => ?_⟩
    cases e with
    | silent => simp [Ending.responses] at hx
    | answered o =>
      cases hl : p.listening <;> simp_all [tables, Ending.responses, Message.isResponse]

/-- The call that ends is the one with this key. It counts as cancelled only if it is. -/
theorem mem_of_ending? {key : Nat} {m : CallMove} {c : Call} {e : Ending}
    (he : p.ending? key m = some (c, e)) :
    c ∈ p.calls ∧ c.key = key ∧ (e = .silent .cancelled → c.cancelled = true) := by
  obtain ⟨d, hd, he⟩ := Option.bind_eq_some_iff.mp he
  have hv : ∀ v, d.ending p.policy v = .silent .cancelled → d.cancelled = true := by
    intro v hs
    rcases v with _ | _ | _
    · exact absurd hs (by simp [Call.ending])
    next f =>
      cases f with
      | cancelled => simpa [Call.ending] using hs
      | methodNotFound | invalidParams | response | other =>
        exact absurd hs (by simp [Call.ending])
    · exact absurd hs (by simp [Call.ending])
  have hdc : d = c ∧ (e = .silent .cancelled → d.cancelled = true) := by
    cases m with
    | settle v =>
      obtain ⟨hd, rfl⟩ := Prod.mk.inj (Option.some.inj he)
      exact ⟨hd, hv v⟩
    | run =>
      dsimp only at he
      split at he
      next hc => exact ⟨(Prod.mk.inj (Option.some.inj he)).1, fun _ => hc⟩
      next =>
        split at he
        next v _ =>
          obtain ⟨hd, rfl⟩ := Prod.mk.inj (Option.some.inj he)
          exact ⟨hd, hv v⟩
        next => exact absurd he (by simp)
  obtain ⟨rfl, hc⟩ := hdc
  exact ⟨List.mem_of_find?_eq_some hd, by simpa using List.find?_some hd, hc⟩

theorem tables_handleRequest (p : Peer) (id : MessageId) (method : String) (params : Payload) :
    (∃ o, (p.handleRequest id method params).tables =
      p.tables.post (.response (some id) (some method) o)) ∨
    (∀ c ∈ p.calls, c.id ≠ id) ∧ (p.handleRequest id method params).tables =
      { p.tables with
        calls := p.calls ++ [⟨p.nextKey, id, method, params, false, none⟩]
        nextKey := p.nextKey + 1 } := by
  unfold handleRequest
  split
  · exact .inl ⟨_, by rw [tables_respond, tables_log]⟩
  · split
    next => exact .inl ⟨_, tables_respond ..⟩
    next hno =>
      refine .inr ⟨fun c hc hi => hno ?_, rfl⟩
      exact List.any_eq_true.mpr ⟨c, hc, beq_iff_eq.mpr hi⟩

theorem handleOwnNotification?_cancel (p : Peer) (params : Payload) :
    p.handleOwnNotification? Message.cancelMethod params =
      some (match CancelParams.decode params with
        | .ok id => p.cancelServed id
        | .error e => p.log .warn s!"Ignoring malformed cancellation: {e.message}") :=
  if_pos (beq_self_eq_true _)

theorem handleOwnNotification?_eq_none_iff {method : String} {params : Payload} :
    p.handleOwnNotification? method params = none ↔
      method ≠ Message.cancelMethod ∧ p.codec.catalog.contains method = true := by
  unfold handleOwnNotification?
  by_cases hm : method = Message.cancelMethod
  · simp [hm]
  · rw [if_neg (by simpa using hm)]
    cases hk : p.codec.catalog.contains method with
    | true => simp [hm]
    | false =>
      simp only [Bool.false_eq_true, if_false, and_false, iff_false]
      split <;> simp

theorem handleNotification_of_own {method : String} {params : Payload} {q : Peer}
    (h : p.handleOwnNotification? method params = some q) :
    p.handleNotification method params = q := by
  rw [handleNotification, h]

theorem handleNotification_of_handed {method : String} {params : Payload}
    (hne : method ≠ Message.cancelMethod) (hk : p.codec.catalog.contains method = true) :
    p.handleNotification method params =
      (p.recordInvocation (p.service.callNotification method params).1).logVerdict method
        (p.service.callNotification method params).2 := by
  rw [handleNotification, handleOwnNotification?_eq_none_iff.mpr ⟨hne, hk⟩]

/-- A notification cancels a call, or a line of the log is all that comes of it, or it is handed to
the service. -/
theorem handleNotification_cases (p : Peer) (method : String) (params : Payload) :
    (∃ id, method = Message.cancelMethod ∧ CancelParams.decode params = .ok id ∧
      p.handleNotification method params = p.cancelServed id) ∨
    (∃ e, p.handleNotification method params = p.write e) ∨
    p.handleNotification method params =
      (p.recordInvocation (p.service.callNotification method params).1).logVerdict method
        (p.service.callNotification method params).2 := by
  by_cases hm : method = Message.cancelMethod
  · subst hm
    have hown := handleOwnNotification?_cancel p params
    cases hid : CancelParams.decode params with
    | ok id =>
      rw [hid] at hown
      exact .inl ⟨id, rfl, rfl, handleNotification_of_own hown⟩
    | error e =>
      rw [hid] at hown
      exact .inr (.inl ⟨_, handleNotification_of_own hown⟩)
  · cases hk : p.codec.catalog.contains method with
    | true => exact .inr (.inr (handleNotification_of_handed hm hk))
    | false =>
      refine .inr (.inl ?_)
      rw [handleNotification, handleOwnNotification?, if_neg (by simpa using hm), hk]
      split
      next q hq =>
        simp only [Bool.false_eq_true, if_false] at hq
        split at hq <;> exact ⟨_, (Option.some.inj hq).symm⟩
      next hq =>
        simp only [Bool.false_eq_true, if_false] at hq
        split at hq <;> cases hq

/-- A notification writes nothing. It cancels a call at most, the one that it names. -/
theorem tables_handleNotification (p : Peer) (method : String) (params : Payload) :
    ∃ f : Call → Call, (∀ c, (f c).identity = c.identity) ∧
      (∀ c ∈ p.calls, (f c).cancelled = true → c.cancelled = true ∨
        ∃ d ∈ p.calls, d.key = c.key ∧ method = Message.cancelMethod ∧
          CancelParams.decode params = .ok d.id) ∧
      (p.handleNotification method params).tables = { p.tables with calls := p.calls.map f } := by
  have hid : p.tables = { p.tables with calls := p.calls.map id } := by
    rw [List.map_id]
    rfl
  have hno : ∀ q : Peer, q.tables = p.tables →
      ∃ f : Call → Call, (∀ c, (f c).identity = c.identity) ∧
        (∀ c ∈ p.calls, (f c).cancelled = true → c.cancelled = true ∨
          ∃ d ∈ p.calls, d.key = c.key ∧ method = Message.cancelMethod ∧
            CancelParams.decode params = .ok d.id) ∧
        q.tables = { p.tables with calls := p.calls.map f } := fun q hq =>
    ⟨id, fun _ => rfl, fun _ _ hc => .inl hc, hq.trans hid⟩
  obtain ⟨i, hm, hd, h⟩ | ⟨e, h⟩ | h := handleNotification_cases p method params
  · rw [h, cancelServed]
    split
    next d hf =>
      refine ⟨fun c => if c.key == d.key then { c with cancelled := true } else c, ?_, ?_, ?_⟩
      · intro c
        dsimp only
        split <;> rfl
      · intro c _ hc
        dsimp only at hc
        split at hc
        next hk =>
          have hi : d.id = i := by simpa using List.find?_some hf
          exact .inr ⟨d, List.mem_of_find?_eq_some hf, (beq_iff_eq.mp hk).symm, hm, hi ▸ hd⟩
        next => exact .inl hc
      · rw [tables_cancelCall]
        rfl
    next => exact hno _ (tables_log _ _ _)
  · exact hno _ (by rw [h, tables_write])
  · exact hno _ (by rw [h, tables_logVerdict, tables_recordInvocation])

theorem tables_handleIssue_of_answerable {i : Issue} {id : MessageId} {method : String}
    (hi : i.id = some id) (hm : i.method = some method) :
    (p.handleIssue i).tables =
      p.tables.post (.response (some id) (some method) (.error i.responseError)) := by
  simp [handleIssue, hi, hm]

theorem tables_handleIssue_of_not_answerable {i : Issue} (h : i.isAnswerable = false) :
    (p.handleIssue i).tables = p.tables := by
  unfold handleIssue
  split
  next hi hm => simp [Issue.isAnswerable, hi, hm] at h
  next => exact tables_log _ _ _

end Peer
end RpcPeer
