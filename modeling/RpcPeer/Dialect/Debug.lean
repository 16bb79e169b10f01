import RpcPeer.Dialect.Envelope

/-!
The debug dialect. Every message has a `seq` and a `type`; requests name their method in `command`,
events in `event`; a response points at its request through `request_seq`.
-/
namespace RpcPeer.Debug

def request : String := "request"
def event : String := "event"
def response : String := "response"

/-- The id that a malformed message would be answered with; events have none. -/
def identity (e : Envelope) : Option MessageId :=
  if e.kind == some event then none
  else if e.kind == some response then e.requestSeq.map .number
  else e.seq.map .number

def invalid (e : Envelope) (message : String) : Issue where
  code := .invalidRequest
  message := message
  id := identity e
  method := e.method

def invalidArguments (method : String) (err : DataError) (id : Option MessageId) : Issue where
  code := .invalidParams
  message := s!"Invalid arguments for '{method}': {err.message}"
  id := id
  method := some method
  cause := some (.data err)

/-- The detail of an error: an integer `id`, a text `format` and perhaps `data`. -/
def detail? (body : Option Json) : Option ResponseError := do
  let err ← (← body).member? "error"
  let code ← (← err.member? "id").int64?
  let format ← (← err.member? "format").str?
  return ⟨Int32.ofInt code.toInt, format, err.member? "data"⟩

def errorOf (message : Option String) (body : Option Json) : ResponseError :=
  match detail? body with
  | some e => e
  | none =>
    ⟨ErrorCode.unknownErrorCode.code, message.getD ErrorCode.unknownErrorCode.message, body⟩

def resolveRequest (catalog : Catalog) (e : Envelope) : Except Issue Message :=
  match e.seq, e.method with
  | none, _ => .error (invalid e "Request without 'seq'")
  | some _, none => .error (invalid e "Request without 'command'")
  | some seq, some method =>
    match catalog.resolveParams method (e.takeField "arguments") with
    | .ok params => .ok (.request (.number seq) method params)
    | .error err => .error (invalidArguments method err (some (.number seq)))

def resolveEvent (catalog : Catalog) (e : Envelope) : Except Issue Message :=
  match e.method with
  | none => .error (invalid e "Event without 'event' name")
  | some method =>
    match catalog.resolveParams method (e.takeField "body") with
    | .ok params => .ok (.notification method params)
    | .error err => .error (invalidArguments method err none)

def resolveResponse (catalog : Catalog) (methods : MethodLookup) (e : Envelope) : Decoding :=
  match e.requestSeq with
  | none => { result := .error (invalid e "Response without 'request_seq'") }
  | some seq =>
    let id := MessageId.number seq
    let body := e.takeField "body"
    if e.success.getD true then
      let (result, log) := catalog.resolveResult (e.method <|> methods id) body
      { result := .ok (.response (some id) e.method (.result result)), log }
    else
      { result := .ok (.response (some id) e.method (.error (errorOf e.message body))) }

def resolve (catalog : Catalog) (methods : MethodLookup) (e : Envelope) (err : Option ReadError) :
    Decoding :=
  match err with
  | some err => { result := .error (e.issueOf err (identity e)) }
  | none =>
    match e.kind with
    | none => { result := .error (invalid e "Message without 'type'") }
    | some kind =>
      if kind == request then { result := resolveRequest catalog e }
      else if kind == event then { result := resolveEvent catalog e }
      else if kind == response then resolveResponse catalog methods e
      else { result := .error (invalid e s!"Unknown message type '{kind}'") }

/-- The number under which an id is written. -/
def sequence (id : MessageId) : Except EncodeError Int64 :=
  match id.number? with
  | some n => .ok n
  | none => .error (.badSequence id)

/-- The members of a request. Its id is its sequence number. -/
def requestMembers (id : MessageId) (method : String) (params : Payload) :
    Except EncodeError (List (String × Json)) := do
  let seq ← sequence id
  return [("seq", .int seq.toInt), ("type", .str request), ("command", .str method)] ++
    (← params.member "arguments")

/-- The members of an event with a sequence number of its own. -/
def eventMembers (seq : Int64) (method : String) (params : Payload) :
    Except EncodeError (List (String × Json)) := do
  return [("seq", .int seq.toInt), ("type", .str event), ("event", .str method)] ++
    (← params.member "body")

def outcomeMembers : Outcome → Except EncodeError (List (String × Json))
  | .result p => p.member "body"
  | .error e =>
    let detail := [("id", .int e.code.toInt), ("format", .str e.message)] ++
      match e.data with
      | none => []
      | some v => [("data", v)]
    .ok [("message", .str e.message),
      ("body", Json.ofMembers [("error", Json.ofMembers detail)])]

/-- The members of a response to the request `requestSeq`. -/
def responseMembers (seq requestSeq : Int64) (method : Option String) (outcome : Outcome) :
    Except EncodeError (List (String × Json)) := do
  return [("seq", .int seq.toInt), ("type", .str response), ("request_seq", .int requestSeq.toInt),
      ("success", .bool outcome.isResult)] ++
    (match method with
      | none => []
      | some m => [("command", .str m)]) ++
    (← outcomeMembers outcome)

/-- Encodes a message; `next` is the next sequence number. Also returns the number after it, for an
event or a response takes one even if its payload then cannot be written. -/
def encode (next : Int64) : Message → Except EncodeError Json × Int64
  | .request id method params => ((requestMembers id method params).map Json.ofMembers, next)
  | .notification method params => ((eventMembers next method params).map Json.ofMembers, next + 1)
  | .response id method outcome =>
    match id.elim (.ok 0) sequence with
    | .error e => (.error e, next)
    | .ok seq => ((responseMembers next seq method outcome).map Json.ofMembers, next + 1)

end RpcPeer.Debug
