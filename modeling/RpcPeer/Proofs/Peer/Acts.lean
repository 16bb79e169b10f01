import RpcPeer.Proofs.Dialect.Numbering
import RpcPeer.Proofs.Peer.Calls
import RpcPeer.Proofs.Peer.Effects

/-! What may happen to a peer that its user holds. -/
namespace RpcPeer

/-- The id under which a message asks for something. -/
def Message.requestId? : Message → Option MessageId
  | request id _ _ => some id
  | _ => none

/-- What can happen to a peer. -/
inductive Act
  | request (method : String) (params : Payload)
  | cancel (n : Node)
  | consume (m : Message)
  | abandon
  /-- Whether somebody takes outgoing messages from now on. -/
  | listen (b : Bool)
  /-- A message is encoded, which may take a number from the counter of ids. -/
  | encode (m : Message)
  | call (key : Nat) (m : CallMove)

/-- Does an act end the request of ticket `u`, whose id is `id`, if it is still open? -/
def Act.ends (u : Nat) (id : MessageId) : Act → Bool
  | cancel n => u == n.ticket
  | consume (.response i _ _) => i == some id
  | abandon => true
  | _ => false

def Act.isRequest : Act → Bool
  | request .. => true
  | _ => false

def Act.isCancel : Act → Bool
  | cancel _ => true
  | _ => false

namespace Peer

def act (p : Peer) : Act → Peer
  | .request method params => (p.request method params).2
  | .cancel n => p.cancel n
  | .consume m => p.consume m
  | .abandon => p.abandonPending
  | .listen b => { p with listening := b }
  | .encode m => { p with codec := (p.codec.encode m).2 }
  | .call key m => p.moveCall key m

/-- The cancellation that an act sends. -/
def cancelled? (p : Peer) : Act → Option MessageId
  | .cancel n => p.tables.openId? n.ticket
  | _ => none

def sentIds (p : Peer) (a : Act) : List MessageId := if a.isRequest then [p.codec.drawId.1] else []

def codecAfter (p : Peer) : Act → Codec
  | .request .. => p.codec.drawId.2
  | .encode m => (p.codec.encode m).2
  | _ => p.codec

variable {p : Peer} {ids : List MessageId}

theorem Fresh.coherent (h : p.Fresh) : p.tables.Coherent [] := by
  have hno : ∀ u, p.tables.openId? u = none := fun u => by
    simp [Tables.openId?, tables, h.tickets]
  refine ⟨?_, List.nodup_nil, ?_, ?_, ?_, ?_, h.owned, h.live⟩
  · simp [tables, h.tickets]
  · simp [tables, h.tickets]
  · intro u id hu
    rw [hno] at hu
    cases hu
  · intro u id
    rw [hno, show p.tables.pending = [] from h.pending]
    simp
  · simp [tables, h.pending]

/-- Nothing but responses is written when a message comes in, and only a response touches outgoing
requests. -/
theorem frame_consume (p : Peer) (m : Message) :
    ∃ ms ts ps cs k, (p.consume m).tables =
        { p.tables with
          outgoing := p.outgoing ++ ms
          tickets := ts
          pending := ps
          calls := cs
          nextKey := k } ∧
      (∀ x ∈ ms, x.isResponse = true) ∧
      (m.isResponse = false → ts = p.tickets ∧ ps = p.pending) := by
  cases m with
  | request id method params =>
    rw [consume]
    rcases tables_handleRequest p id method params with ⟨o, ht⟩ | ⟨-, ht⟩
    · refine ⟨_, _, _, _, _, ht, fun x hx => ?_, fun _ => ⟨rfl, rfl⟩⟩
      split at hx
      next => exact List.mem_singleton.mp hx ▸ rfl
      next => exact absurd hx List.not_mem_nil
    · refine ⟨[], p.tickets, p.pending, p.calls ++ [⟨p.nextKey, id, method, params, false, none⟩],
        p.nextKey + 1, ?_, by simp, fun _ => ⟨rfl, rfl⟩⟩
      rw [ht, List.append_nil]
      rfl
  | notification method params =>
    obtain ⟨f, -, -, ht⟩ := tables_handleNotification p method params
    refine ⟨[], p.tickets, p.pending, p.calls.map f, p.nextKey, ?_, by simp, fun _ => ⟨rfl, rfl⟩⟩
    rw [consume, ht, List.append_nil]
    rfl
  | response id method o =>
    obtain ⟨ts, ps, ht⟩ := frame_handleResponse p id o
    refine ⟨[], ts, ps, p.calls, p.nextKey, ?_, by simp, nofun⟩
    rw [consume, ht, List.append_nil]
    rfl

theorem closes_consume (h : p.tables.Coherent ids) (m : Message) :
    Tables.Closes p.tables (p.consume m).tables fun u i => (Act.consume m).ends u i := by
  cases m with
  | response id method o => exact closes_handleResponse h id o
  | request id method params =>
    obtain ⟨ms, ts, ps, cs, k, ht, -, hsame⟩ := frame_consume p (.request id method params)
    obtain ⟨rfl, rfl⟩ := hsame rfl
    rw [ht]
    exact .of_eq rfl rfl rfl rfl
  | notification method params =>
    obtain ⟨ms, ts, ps, cs, k, ht, -, hsame⟩ := frame_consume p (.notification method params)
    obtain ⟨rfl, rfl⟩ := hsame rfl
    rw [ht]
    exact .of_eq rfl rfl rfl rfl

theorem arrived?_consume (p : Peer) {m : Message} (hm : m.isResponse = false) (u : Nat) :
    (p.consume m).tables.arrived? u = p.tables.arrived? u := by
  obtain ⟨ms, ts, ps, cs, k, ht, -, hsame⟩ := frame_consume p m
  obtain ⟨rfl, -⟩ := hsame hm
  rw [ht]
  rfl

theorem closes_moveCall (h : p.tables.Coherent ids) (key : Nat) (m : CallMove) :
    Tables.Closes p.tables (p.moveCall key m).tables fun _ _ => false := by
  obtain ⟨ms, cs, ht, -⟩ := frame_moveCall h.owned key m
  rw [ht]
  exact .of_eq rfl rfl rfl rfl

/-- Every act but a request closes what it ends and nothing else. -/
theorem closes_act (h : p.tables.Coherent ids) {a : Act} (ha : a.isRequest = false) :
    Tables.Closes p.tables (p.act a).tables fun u i => a.ends u i := by
  cases a with
  | request method params => exact absurd ha (by simp [Act.isRequest])
  | cancel n => exact closes_cancel h n
  | consume m => exact closes_consume h m
  | abandon => exact (closes_abandonPending h).1
  | listen | encode => exact Tables.Closes.of_eq rfl rfl rfl rfl
  | call key m => exact closes_moveCall h key m

theorem openId?_act (h : p.tables.Coherent ids) (a : Act) {u : Nat} (hu : u < p.tickets.length) :
    (p.act a).tables.openId? u = (p.tables.openId? u).filter (!a.ends u ·) := by
  cases a with
  | request method params =>
    have ho := openId?_request (p := p) method params u
    rw [if_neg (Nat.ne_of_lt hu)] at ho
    refine ho.trans ?_
    cases p.tables.openId? u <;> rfl
  | cancel | consume | abandon | listen | encode | call =>
    exact (closes_act h rfl).openId? u

/-- The codec changes when an id is drawn or a message is encoded. An act sends the request that it
makes and no other, and nothing but cancelling an open request writes a cancellation. -/
theorem messages_act (h : p.tables.Coherent ids) (a : Act) :
    ∃ ms, (p.act a).outgoing = p.outgoing ++ ms ∧ (p.act a).codec = p.codecAfter a ∧
      ms.filterMap Message.requestId? = (if p.listening then p.sentIds a else []) ∧
      ∀ id, ms.countP (·.cancels id) =
        if p.listening ∧ p.cancelled? a = some id then 1 else 0 := by
  -- the effects that write nothing but responses
  have hquiet : ∀ (q : Peer) (ms : List Message), p.sentIds a = [] → p.cancelled? a = none →
      q.outgoing = p.outgoing ++ ms → (∀ x ∈ ms, x.isResponse = true) → q.codec = p.codecAfter a →
      ∃ ms, q.outgoing = p.outgoing ++ ms ∧ q.codec = p.codecAfter a ∧
        ms.filterMap Message.requestId? = (if p.listening then p.sentIds a else []) ∧
        ∀ id, ms.countP (·.cancels id) =
          if p.listening ∧ p.cancelled? a = some id then 1 else 0 := by
    intro q ms hs ha ho hms hc
    have hrequests : ms.filterMap Message.requestId? = [] := by
      refine List.filterMap_eq_nil_iff.mpr fun x hx => ?_
      obtain ⟨i, method, o, rfl⟩ := Message.eq_response (hms x hx)
      rfl
    have hcancels : ∀ id, ms.countP (·.cancels id) = 0 := by
      refine fun id => List.countP_eq_zero.mpr fun x hx => ?_
      obtain ⟨i, method, o, rfl⟩ := Message.eq_response (hms x hx)
      simp
    exact ⟨ms, ho, hc, by rw [hrequests, hs, ite_self], fun id => by simp [hcancels, ha]⟩
  cases a with
  | request method params =>
    obtain ⟨k, he, -⟩ := tables_request p method params
    refine ⟨_, congrArg Tables.outgoing he, congrArg Tables.codec he, ?_, fun id => ?_⟩
    · cases p.listening with
      | false => rfl
      | true => rfl
    · cases p.listening <;> simp [cancelled?]
  | cancel n =>
    obtain ⟨ts, ps, ms, ht⟩ := frame_cancel h n
    refine ⟨_, outgoing_cancel h n, congrArg Tables.codec ht, ?_, fun id => ?_⟩
    · cases p.tables.openId? n.ticket with
      | none => simp [sentIds, Act.isRequest]
      | some i => cases p.listening <;> rfl
    · cases ho : p.tables.openId? n.ticket with
      | none => simp [cancelled?, ho]
      | some i => cases p.listening <;> simp [cancelled?, ho, List.countP_cons]
  | consume m =>
    obtain ⟨ms, ts, ps, cs, k, ht, hms, -⟩ := frame_consume p m
    exact hquiet _ ms rfl rfl (congrArg Tables.outgoing ht) hms (congrArg Tables.codec ht)
  | abandon =>
    obtain ⟨-, ts, ps, ht⟩ := closes_abandonPending h
    have ho : p.abandonPending.outgoing = p.outgoing ++ [] :=
      (congrArg Tables.outgoing ht).trans (List.append_nil _).symm
    exact hquiet _ [] rfl rfl ho (by simp) (congrArg Tables.codec ht)
  | listen | encode => exact hquiet _ [] rfl rfl (List.append_nil _).symm (by simp) rfl
  | call key m =>
    obtain ⟨ms, cs, ht, hms⟩ := frame_moveCall h.owned key m
    exact hquiet _ ms rfl rfl (congrArg Tables.outgoing ht) hms (congrArg Tables.codec ht)

theorem coherent_act (h : p.tables.Coherent ids) (hid : p.codec.drawId.1 ∉ ids) (a : Act) :
    (p.act a).tables.Coherent (ids ++ p.sentIds a) := by
  cases ha : a.isRequest with
  | false => simpa [sentIds, ha] using h.closes (closes_act h ha)
  | true =>
    cases a with
    | request method params => exact coherent_request method params h hid
    | cancel | consume | abandon | listen | encode | call =>
      exact absurd ha (by simp [Act.isRequest])

theorem numbered_act (h : p.tables.Coherent ids) (a : Act) {c : Codec} {n : Nat}
    {sent : List MessageId} (hc : c.Numbered p.codec n sent) :
    c.Numbered (p.act a).codec (n + p.codec.takenUntil (p.act a).codec) (sent ++ p.sentIds a) := by
  obtain ⟨-, -, hcodec, -⟩ := messages_act h a
  rw [hcodec]
  cases a with
  | request => exact hc.drawId
  | encode m => simpa [sentIds, Act.isRequest, codecAfter] using hc.encode m
  | cancel | consume | abandon | listen | call =>
    simpa [sentIds, Act.isRequest, codecAfter, Codec.takenUntil] using hc

end Peer
end RpcPeer
