import RpcPeer.Dialect.Basic
import RpcPeer.Shape.Read

/-!
One pass over the members of a message. The scalars of the envelope are decoded as they come, all
other members are kept as trees in their order. Whatever precedes an error is kept beside it.
-/
namespace RpcPeer

structure Envelope where
  version : Option String := none
  id : Option MessageId := none
  method : Option String := none
  seq : Option Int64 := none
  requestSeq : Option Int64 := none
  kind : Option String := none
  success : Option Bool := none
  message : Option String := none
  fields : List (String × Json) := []
  /-- The message is an object, so that a later error is about its content. -/
  inObject : Bool := false

/-- The place of a member in the envelope. -/
inductive Slot
  | version
  | id
  | method
  | seq
  | requestSeq
  | kind
  | success
  | message
  deriving DecidableEq

namespace Slot

/-- The slot of a name; any other member is a field. -/
def ofKey? : Dialect → String → Option Slot
  | .base, key =>
    if key == "jsonrpc" then some version
    else if key == "id" then some id
    else if key == "method" then some method
    else none
  | .debug, key =>
    if key == "seq" then some seq
    else if key == "request_seq" then some requestSeq
    else if key == "type" then some kind
    else if key == "command" || key == "event" then some method
    else if key == "success" then some success
    else if key == "message" then some message
    else none

def shape : Slot → Shape
  | version | method | kind => .text
  | id => .option .id
  | seq | requestSeq => .int .int64
  | success => .bool
  | message => .option .text

end Slot

namespace Envelope

private def text? : Datum → Option String
  | .text s => some s
  | _ => none

private def int64? : Datum → Option Int64
  | .int n => some (Int64.ofInt n)
  | _ => none

private def bool? : Datum → Option Bool
  | .bool b => some b
  | _ => none

/-- Fills a slot; an earlier value is replaced. -/
def fill (e : Envelope) (slot : Slot) (d : Datum) : Envelope :=
  match slot with
  | .version => { e with version := text? d }
  | .id => { e with id := MessageId.ofDatum? d }
  | .method => { e with method := text? d }
  | .seq => { e with seq := int64? d }
  | .requestSeq => { e with requestSeq := int64? d }
  | .kind => { e with kind := text? d }
  | .success => { e with success := bool? d }
  | .message => { e with message := text? d }

def addField (e : Envelope) (name : String) (v : Json) : Envelope :=
  { e with fields := e.fields ++ [(name, v)] }

/-- Takes the first field of a name out; `null` counts as absent. -/
def takeField (e : Envelope) (name : String) : Option Json :=
  match e.fields.lookup name with
  | none | some .null => none
  | some v => some v

def expected : String := "a JSON object"

/-- The members of a text, with the closing brace. -/
def scanMembers (dialect : Dialect) :
    Nat → Bool → Envelope → List Char → Envelope × Except ReadError (List Char)
  | 0, _, e, _ => (e, .error .eofInObject)
  | rounds + 1, first, e, cs =>
    match Json.nextKey first cs with
    | .error err => (e, .error err)
    | .ok (none, cs) => (e, (Json.endMembers cs).map (·.2))
    | .ok (some key, cs) =>
      match Json.colon cs with
      | .error err => (e, .error err)
      | .ok ((), cs) =>
        match Slot.ofKey? dialect key with
        | some slot =>
          match slot.shape.read (Json.maxDepth - 1) cs with
          | .error err => (e, .error err)
          | .ok (d, cs) => scanMembers dialect rounds false (e.fill slot d) cs
        | none =>
          match Json.value (Json.maxDepth - 1) cs with
          | .error err => (e, .error err)
          | .ok (v, cs) => scanMembers dialect rounds false (e.addField key v) cs

/-- Scans a text: what was read of the envelope, and the error that stopped the scan. -/
def scanText (dialect : Dialect) (text : String) : Envelope × Option ReadError :=
  match Json.skipSpace text.toList with
  | [] => ({}, some .eofInValue)
  | '\x7b' :: cs =>
    match scanMembers dialect (cs.length + 1) true { inObject := true } cs with
    | (e, .error err) => (e, some err)
    | (e, .ok rest) =>
      match Json.finish rest with
      | .ok () => (e, none)
      | .error err => (e, some err)
  | cs => ({}, some (Shape.mismatchAt expected cs))

/-- The members of a tree, in the order of their names. -/
def scanTree (dialect : Dialect) (e : Envelope) : List (String × Json) → Envelope × Option ReadError
  | [] => (e, none)
  | (key, v) :: rest =>
    match Slot.ofKey? dialect key with
    | some slot =>
      match slot.shape.decode v with
      | .error err => (e, some (.data err))
      | .ok d => scanTree dialect (e.fill slot d) rest
    | none => scanTree dialect (e.addField key v) rest

def scanValue (dialect : Dialect) : Json → Envelope × Option ReadError
  | .obj members => scanTree dialect { inObject := true } members
  | v => ({}, some (.data (v.mismatch expected)))

/-- The issue of a message whose scan was stopped. Only a value that does not fit its slot makes an
invalid request; everything else is no message at all. -/
def issueOf (e : Envelope) (err : ReadError) (id : Option MessageId) : Issue where
  code := if e.inObject && err.cause == .data then .invalidRequest else .parseError
  message := s!"Message could not be parsed: {err.message}"
  id := id
  method := e.method
  cause := some err

end Envelope
end RpcPeer
