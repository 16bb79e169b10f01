import RpcPeer.Dialect.Basic

/-!
Views of messages and issues for people who look into a connection. A view is the same in both
dialects, and it tells the types of payloads.
-/
namespace RpcPeer

/-- A payload with its type, or the reason why it has no JSON form. -/
def Payload.report : Payload → Json
  | .absent => .null
  | .json v => .ofMembers [("json", v)]
  | .typed name d =>
    .ofMembers [("type", .str name), match d.toJson with
      | .ok v => ("value", v)
      | .error e => ("unserializable", .str e.message)]

namespace Message

def reportId (id : Option MessageId) : Json := id.elim .null MessageId.toJson

def reportText (s : Option String) : Json := s.elim .null .str

def report : Message → Json
  | request id method params =>
    .ofMembers [("kind", .str "request"), ("id", id.toJson), ("method", .str method),
      ("params", params.report)]
  | notification method params =>
    .ofMembers [("kind", .str "notification"), ("method", .str method), ("params", params.report)]
  | response id method outcome =>
    .ofMembers [("kind", .str "response"), ("id", reportId id), ("method", reportText method),
      match outcome with
      | .result p => ("result", p.report)
      | .error e => ("error", e.toJson)]

end Message

def Cause.name : Cause → String
  | .grammar => "Syntax"
  | .truncated => "Eof"
  | .data => "Data"

/-- An issue with the error that it would be answered with. -/
def Issue.report (i : Issue) : Json :=
  .ofMembers [("issue", .str i.code.name), ("message", .str i.message),
    ("id", Message.reportId i.id), ("method", Message.reportText i.method),
    ("cause", Message.reportText (i.cause.map (·.cause.name))),
    ("answerable", .bool i.isAnswerable), ("response_error", i.responseError.toJson)]

end RpcPeer
