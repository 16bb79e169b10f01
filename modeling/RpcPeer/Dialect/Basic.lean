import RpcPeer.Catalog.Basic
import RpcPeer.Log
import RpcPeer.Message.Basic
import RpcPeer.Text.Blank

/-! The two wire dialects, and what both of them do with a payload. -/
namespace RpcPeer

inductive Dialect
  /-- The plain envelope of version 2.0. -/
  | base
  /-- The envelope of debug adapters. -/
  | debug
  deriving DecidableEq

namespace Dialect

/-- The dialect with this name or alias, in letters of either case. -/
def ofName? (name : String) : Option Dialect :=
  let name := String.ofList (Text.lower name.toList)
  if name ∈ ["base", "jsonrpc", "json-rpc", "lsp"] then some base
  else if name ∈ ["debug", "dap"] then some debug
  else none

def display : Dialect → String
  | base => "Base"
  | debug => "Debug"

def key : Dialect → String
  | base => "base"
  | debug => "debug"

def label : TypeLabel := ⟨s!"{Shape.libraryPath}::jsonrpc::codec", "Dialect"⟩

def shape : Shape := .variants label [key base, key debug]

def toDatum (d : Dialect) : Datum := .variant d.key

def ofDatum : Datum → Dialect
  | .variant name => if name == key debug then debug else base
  | _ => base

end Dialect

/-- Why a message could not be decoded, with as much of its identity as was read. -/
structure Issue where
  code : ErrorCode
  message : String
  id : Option MessageId := none
  method : Option String := none
  cause : Option ReadError := none

namespace Issue

/-- A message can be answered if its id and its method are known. -/
def isAnswerable (i : Issue) : Bool := i.id.isSome && i.method.isSome

def responseError (i : Issue) : ResponseError := .ofCode i.code i.message

end Issue

/-- Why a message could not be encoded. -/
inductive EncodeError
  | unwritable (what : String) (e : DataError)
  | badSequence (id : MessageId)

def EncodeError.message : EncodeError → String
  | .unwritable what e => s!"failed to serialize {what}: {e.message}"
  | .badSequence id => s!"message id '{id.display}' is not a valid sequence number"

/-- Tells the method of a request that this side has sent. -/
abbrev MethodLookup := MessageId → Option String

def noMethods : MethodLookup := fun _ => none

/-- A decoded message or an issue, and what was logged on the way. -/
structure Decoding where
  result : Except Issue Message
  log : List LogEntry := []

namespace Catalog

/-- Resolves parameters; those of an unknown method stay as they are. -/
def resolveParams (c : Catalog) (method : String) : Option Json → Except DataError Payload
  | none => .ok .absent
  | some raw =>
    match c.find? method with
    | some entry => entry.params.resolve raw
    | none => .ok (.json raw)

def resultShape? (c : Catalog) (method : Option String) : Option Shape := do
  (← c.find? (← method)).result

/-- Resolves a result. One that does not fit its type stays a tree, with a warning. -/
def resolveResult (c : Catalog) (method : Option String) : Option Json → Payload × List LogEntry
  | none => (.absent, [])
  | some raw =>
    match c.resultShape? method with
    | none => (.json raw, [])
    | some s =>
      match s.resolve raw with
      | .ok p => (p, [])
      | .error e =>
        let name := method.getD ""
        let reason := s!"{s.typeName}: {e.message}"
        (.json raw, [⟨.warn, s!"Result of '{name}' does not match {reason}; keeping raw JSON"⟩])

end Catalog

/-- The JSON form of a payload that is called `what`. -/
def Payload.written (what : String) (p : Payload) : Except EncodeError (Option Json) :=
  p.toJson.mapError (.unwritable what)

/-- The member for a payload, which is left out if it is absent or `null`. -/
def Payload.member (name : String) (p : Payload) : Except EncodeError (List (String × Json)) := do
  match ← p.written name with
  | none | some .null => return []
  | some v => return [(name, v)]

end RpcPeer
