import RpcPeer.Message.Error
import RpcPeer.Message.Id
import RpcPeer.Message.Payload

/-! Messages: requests, notifications and responses. -/
namespace RpcPeer

/-- What a response reports. -/
inductive Outcome
  | result (value : Payload)
  | error (e : ResponseError)

namespace Outcome

def isResult : Outcome → Bool
  | result _ => true
  | error _ => false

def same : Outcome → Outcome → Bool
  | result p, result q => p == q
  | error d, error e => d == e
  | _, _ => false

instance : BEq Outcome := ⟨same⟩

end Outcome

inductive Message
  | request (id : MessageId) (method : String) (params : Payload)
  | notification (method : String) (params : Payload)
  /-- The id is missing if the message that is answered had none that could be read. -/
  | response (id : Option MessageId) (method : Option String) (outcome : Outcome)

namespace Message

def method? : Message → Option String
  | request _ m _ => some m
  | notification m _ => some m
  | response _ m _ => m

def id? : Message → Option MessageId
  | request i _ _ => some i
  | notification _ _ => none
  | response i _ _ => i

def same : Message → Message → Bool
  | request i m p, request j n q => i == j && m == n && p == q
  | notification m p, notification n q => m == n && p == q
  | response i m o, response j n r => i == j && m == n && o == r
  | _, _ => false

instance : BEq Message := ⟨same⟩

/-- The method of the notification that cancels a request. -/
def cancelMethod : String := "$/cancelRequest"

end Message

/-- The parameters of a cancellation: the id of the request. -/
structure CancelParams where
  id : MessageId
  deriving DecidableEq

namespace CancelParams

def label : TypeLabel := ⟨s!"{Shape.libraryPath}::jsonrpc::types", "CancelParams"⟩

def shape : Shape := .record label [("id", .required, .id)]

def toDatum (c : CancelParams) : Datum := .record [("id", c.id.toDatum)]

def payload (c : CancelParams) : Payload := .typed shape.typeName c.toDatum

def decode (p : Payload) : Except DataError MessageId := do
  match (← p.decode shape).field? "id" >>= MessageId.ofDatum? with
  | some id => return id
  | none => throw (.missingField "id")

end CancelParams
end RpcPeer
