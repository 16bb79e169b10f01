import RpcPeer.Dialect.Envelope

/-! The base dialect: `jsonrpc`, `id`, `method`, `params`, `result` and `error`. -/
namespace RpcPeer.Base

def version : String := "2.0"

def invalidParams (method : String) (e : DataError) (id : Option MessageId) : Issue where
  code := .invalidParams
  message := s!"Invalid params for '{method}': {e.message}"
  id := id
  method := some method
  cause := some (.data e)

/-- A message that names a method: a request if it has an id. -/
def resolveCall (catalog : Catalog) (e : Envelope) (method : String) (id : Option MessageId) :
    Except Issue Message :=
  match catalog.resolveParams method (e.takeField "params") with
  | .error err => .error (invalidParams method err id)
  | .ok params =>
    .ok (match id with
      | some id => .request id method params
      | none => .notification method params)

def hasOutcome (e : Envelope) : Bool :=
  e.fields.any fun (name, _) => name == "result" || name == "error"

/-- A message without a method: an error that is not `null` comes before a result. -/
def resolveResponse (catalog : Catalog) (methods : MethodLookup) (e : Envelope)
    (id : Option MessageId) : Decoding :=
  if id.isNone && !hasOutcome e then
    { result := .error
        ⟨.invalidRequest, "Message is neither a request, a notification nor a response",
          none, none, none⟩ }
  else
    match e.takeField "error" with
    | some raw =>
      match ResponseError.decode raw with
      | .ok err => { result := .ok (.response id none (.error err)) }
      | .error err =>
        { result := .error
            ⟨.invalidRequest, s!"Malformed response error: {err.message}", id, none,
              some (.data err)⟩ }
    | none =>
      let (result, log) := catalog.resolveResult (id >>= methods) (e.takeField "result")
      { result := .ok (.response id none (.result result)), log }

def resolve (catalog : Catalog) (methods : MethodLookup) (e : Envelope) (err : Option ReadError) :
    Decoding :=
  match err with
  | some err => { result := .error (e.issueOf err e.id) }
  | none =>
    match e.version.filter (· != version) with
    | some v =>
      { result := .error
          ⟨.invalidRequest, s!"Unsupported jsonrpc version '{v}'", e.id, e.method, none⟩ }
    | none =>
      match e.method with
      | some method => { result := resolveCall catalog e method e.id }
      | none => resolveResponse catalog methods e e.id

/-- The members of a message, besides the version. -/
def members : Message → Except EncodeError (List (String × Json))
  | .request id method params => do
    return [("id", id.toJson), ("method", .str method)] ++ (← params.member "params")
  | .notification method params => do
    return ("method", .str method) :: (← params.member "params")
  | .response id _ outcome => do
    let id := match id with
      | some id => id.toJson
      | none => .null
    match outcome with
    | .result p => return [("id", id), ("result", (← p.written "result").getD .null)]
    | .error e => return [("id", id), ("error", e.toJson)]

def encode (m : Message) : Except EncodeError Json := do
  return Json.ofMembers (("jsonrpc", .str version) :: (← members m))

end RpcPeer.Base
