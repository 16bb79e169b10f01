import RpcPeer.Proofs.Dialect.DebugRoundTrip

/-! What can be encoded, by the dialect and the message alone. -/
namespace RpcPeer
open Steps

theorem Payload.failure?_member (name : String) (p : Payload) :
    failure? (p.member name) = failure? (p.written name) := by
  unfold member
  cases p.written name with
  | error e => rfl
  | ok j => rcases j with _ | (_ | _) <;> rfl

theorem Payload.notMem_names_member {name key : String} {p : Payload} {ps : List (String × Json)}
    (h : p.member name = .ok ps) (hk : key ≠ name) : key ∉ ps.map (·.1) := by
  obtain ⟨j, -, rfl⟩ := Payload.member_eq_ok h
  rcases Payload.names_memberOf name j with hn | hn
  · rw [hn]
    exact List.not_mem_nil
  · rw [hn, List.mem_singleton]
    exact hk

namespace Dialect

/-- Why an id cannot be written: in the debug dialect ids are numbers. -/
def idFault? : Dialect → Option MessageId → Option EncodeError
  | debug, some id => if id.number?.isSome then none else some (.badSequence id)
  | _, _ => none

/-- Can a response with this id be written? -/
def writesId : Dialect → Option MessageId → Bool
  | base, _ => true
  | debug, id => id.all (·.number?.isSome)

theorem idFault?_eq_none_iff (d : Dialect) (id : Option MessageId) :
    d.idFault? id = none ↔ d.writesId id = true := by
  cases d with
  | base => cases id <;> simp [idFault?, writesId]
  | debug =>
    cases id with
    | none => simp [idFault?, writesId]
    | some id => cases hn : id.number? <;> simp [idFault?, writesId, hn]

/-- Under which name the payload of a message is written. -/
def payloadName : Dialect → Message → String
  | base, .response .. => "result"
  | base, _ => "params"
  | debug, .request .. => "arguments"
  | debug, _ => "body"

end Dialect

namespace Message

def payload? : Message → Option Payload
  | request _ _ p | notification _ p | response _ _ (.result p) => some p
  | response _ _ (.error _) => none

/-- Why a message cannot be encoded: its id or else its payload cannot be written. -/
def fault? (d : Dialect) (m : Message) : Option EncodeError :=
  (d.idFault? m.id?).or (m.payload?.bind fun p => failure? (p.written (d.payloadName m)))

end Message

theorem Base.failure?_encode (m : Message) : failure? (Base.encode m) = m.fault? .base := by
  have hid : Dialect.idFault? .base m.id? = none := by cases m.id? <;> rfl
  rw [Message.fault?, hid, Option.none_or, Base.encode, failure?_bind_pure]
  cases m with
  | request id method p => exact (failure?_bind_pure _ _).trans (p.failure?_member _)
  | notification method p => exact (failure?_bind_pure _ _).trans (p.failure?_member _)
  | response id method o =>
    cases o with
    | result p => exact failure?_bind_pure _ _
    | error e => rfl

namespace Debug

theorem failure?_sequence (id : MessageId) :
    failure? (sequence id) = Dialect.idFault? .debug (some id) := by
  unfold sequence
  cases hn : id.number? <;> simp [Dialect.idFault?, hn, failure?]

theorem failure?_outcomeMembers (id : Option MessageId) (method : Option String) (o : Outcome) :
    failure? (outcomeMembers o) =
      (Message.response id method o).payload?.bind fun p => failure? (p.written "body") := by
  cases o with
  | result p => exact p.failure?_member _
  | error e => rfl

theorem failure?_requestMembers (id : MessageId) (method : String) (p : Payload) :
    failure? (requestMembers id method p) = (Message.request id method p).fault? .debug := by
  have hrest : ∀ seq : Int64, failure? (do
      return [("seq", Json.int seq.toInt), ("type", .str request), ("command", .str method)] ++
        (← p.member "arguments")) = failure? (p.written "arguments") := fun seq =>
    (failure?_bind_pure _ _).trans (p.failure?_member _)
  refine (failure?_bind hrest).trans ?_
  rw [failure?_sequence]
  rfl

theorem encode_response (next : Int64) (id : Option MessageId) (method : Option String)
    (o : Outcome) :
    encode next (.response id method o) =
      match id.elim (.ok 0) sequence with
      | .error e => (.error e, next)
      | .ok seq => ((responseMembers next seq method o).map Json.ofMembers, next + 1) := rfl

theorem failure?_encode (next : Int64) (m : Message) :
    failure? (Debug.encode next m).1 = m.fault? .debug := by
  cases m with
  | request id method p => exact (failure?_map _ _).trans (failure?_requestMembers id method p)
  | notification method p =>
    refine (failure?_map _ _).trans ((failure?_bind_pure _ _).trans ?_)
    exact p.failure?_member _
  | response id method o =>
    have hseq : failure? (id.elim (.ok 0) sequence) = Dialect.idFault? .debug id := by
      cases id with
      | none => rfl
      | some id => exact failure?_sequence id
    have hbody : ∀ seq, failure? ((responseMembers next seq method o).map Json.ofMembers) =
        (Message.response id method o).payload?.bind fun p => failure? (p.written "body") := by
      intro seq
      refine (failure?_map _ _).trans ((failure?_bind_pure _ _).trans ?_)
      exact failure?_outcomeMembers id method o
    have hid : (Message.response id method o).id? = id := rfl
    rw [encode_response, Message.fault?, hid, ← hseq]
    cases id.elim (.ok 0) sequence with
    | error e => rfl
    | ok seq => exact hbody seq

/-- A request is written under the number of its id, anything else under the next number. -/
theorem member?_seq {next : Int64} {m : Message} {v : Json} (h : (encode next m).1 = .ok v) :
    ∃ n : Int64, v.member? "seq" = some (.int n.toInt) ∧
      match m with
      | .request id _ _ => id.number? = some n
      | _ => n = next := by
  cases m with
  | request id method p =>
    obtain ⟨ms, hms, rfl⟩ := map_eq_ok.mp h
    obtain ⟨n, hn, hms⟩ := bind_eq_ok.mp hms
    obtain ⟨ps, hps, hms⟩ := bind_eq_ok.mp hms
    cases hms
    have hnot : "seq" ∉ ps.map (·.1) := Payload.notMem_names_member hps (by decide)
    refine ⟨n, Json.member?_ofMembers (by simpa using hnot), ?_⟩
    unfold sequence at hn
    split at hn
    next k hk => exact hk.trans (congrArg some (Except.ok.inj hn))
    next => cases hn
  | notification method p =>
    obtain ⟨ms, hms, rfl⟩ := map_eq_ok.mp h
    obtain ⟨ps, hps, hms⟩ := bind_eq_ok.mp hms
    cases hms
    have hnot : "seq" ∉ ps.map (·.1) := Payload.notMem_names_member hps (by decide)
    exact ⟨next, Json.member?_ofMembers (by simpa using hnot), rfl⟩
  | response id method o =>
    rw [encode_response] at h
    split at h
    next => cases h
    next n hn =>
      obtain ⟨ms, hms, rfl⟩ := map_eq_ok.mp h
      obtain ⟨ps, hps, rfl⟩ := responseMembers_eq_ok hms
      have hnot : "seq" ∉ ps.map (·.1) := by
        cases o with
        | result p => exact Payload.notMem_names_member hps (by decide)
        | error e =>
          cases hps
          simp
      refine ⟨next, Json.member?_ofMembers ?_, rfl⟩
      cases method <;> simpa [responseHead] using hnot

end Debug

namespace Codec

theorem failure?_encode (c : Codec) (m : Message) :
    failure? (c.encode m).1 = m.fault? c.dialect := by
  obtain ⟨d, k, n⟩ := c
  cases d with
  | base => exact Base.failure?_encode m
  | debug => exact Debug.failure?_encode n m

theorem failure?_encodeText (c : Codec) (m : Message) :
    failure? (c.encodeText m).1 = m.fault? c.dialect :=
  (failure?_map _ _).trans (c.failure?_encode m)

/-- Encoding moves the counter at most. -/
theorem encodeText_eq_next (c : Codec) (m : Message) :
    (c.encodeText m).2 = { c with next := (c.encodeText m).2.next } := by
  obtain ⟨d, k, n⟩ := c
  cases d <;> rfl

/-- A response whose id cannot be written takes no number. -/
theorem encodeText_of_not_writesId {c : Codec} {id : Option MessageId}
    (h : c.dialect.writesId id = false) (method : Option String) (o : Outcome) :
    (c.encodeText (.response id method o)).2 = c := by
  obtain ⟨d, k, n⟩ := c
  cases d with
  | base => cases h
  | debug =>
    cases id with
    | none => cases h
    | some id =>
      have hn : id.number? = none := by simpa [Dialect.writesId] using h
      simp [encodeText, encode, Debug.encode, Debug.sequence, hn]

end Codec
end RpcPeer
