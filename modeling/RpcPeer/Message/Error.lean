import RpcPeer.Json.Printer
import RpcPeer.Shape.Decode

/-! The errors that responses carry, and their well-known codes. -/
namespace RpcPeer

inductive ErrorCode
  | parseError
  | invalidRequest
  | methodNotFound
  | invalidParams
  | internalError
  | serverNotInitialized
  | unknownErrorCode
  | requestFailed
  | serverCancelled
  | contentModified
  | requestCancelled
  deriving DecidableEq

namespace ErrorCode

def all : List ErrorCode :=
  [parseError, invalidRequest, methodNotFound, invalidParams, internalError, serverNotInitialized,
    unknownErrorCode, requestFailed, serverCancelled, contentModified, requestCancelled]

def code : ErrorCode → Int32
  | parseError => -32700
  | invalidRequest => -32600
  | methodNotFound => -32601
  | invalidParams => -32602
  | internalError => -32603
  | serverNotInitialized => -32002
  | unknownErrorCode => -32001
  | requestFailed => -32803
  | serverCancelled => -32802
  | contentModified => -32801
  | requestCancelled => -32800

def name : ErrorCode → String
  | parseError => "ParseError"
  | invalidRequest => "InvalidRequest"
  | methodNotFound => "MethodNotFound"
  | invalidParams => "InvalidParams"
  | internalError => "InternalError"
  | serverNotInitialized => "ServerNotInitialized"
  | unknownErrorCode => "UnknownErrorCode"
  | requestFailed => "RequestFailed"
  | serverCancelled => "ServerCancelled"
  | contentModified => "ContentModified"
  | requestCancelled => "RequestCancelled"

/-- The message of an error that says no more than its code. -/
def message : ErrorCode → String
  | parseError => "Parse error"
  | invalidRequest => "Invalid Request"
  | methodNotFound => "Method not found"
  | invalidParams => "Invalid params"
  | internalError => "Internal error"
  | serverNotInitialized => "Server not initialized"
  | unknownErrorCode => "Unknown error"
  | requestFailed => "Request failed"
  | serverCancelled => "Server cancelled"
  | contentModified => "Content modified"
  | requestCancelled => "Request cancelled"

def ofCode? (code : Int32) : Option ErrorCode := all.find? (·.code == code)

end ErrorCode

/-- The error of a response. Data that is `null` differs from no data. -/
structure ResponseError where
  code : Int32
  message : String
  data : Option Json := none

namespace ResponseError

def ofCode (code : ErrorCode) (message : String := code.message) : ResponseError :=
  ⟨code.code, message, none⟩

def display (e : ResponseError) : String := s!"[{e.code.toInt}] {e.message}"

def errorCode? (e : ResponseError) : Option ErrorCode := ErrorCode.ofCode? e.code

def same (a b : ResponseError) : Bool :=
  a.code == b.code && a.message == b.message &&
    match a.data, b.data with
    | none, none => true
    | some v, some w => v == w
    | _, _ => false

instance : BEq ResponseError := ⟨same⟩

def label : TypeLabel := ⟨s!"{Shape.libraryPath}::jsonrpc::types", "ResponseError"⟩

/-- The type of errors as payloads. Data that is `null` is read as no data. -/
def shape : Shape :=
  .record label
    [("code", .required, .int .int32), ("message", .required, .text),
      ("data", .optional, .option .json)]

def toDatum (e : ResponseError) : Datum :=
  .record
    [("code", .int e.code.toInt), ("message", .text e.message),
      ("data", match e.data with
        | none => .absent
        | some v => .json v)]

def ofDatum? (d : Datum) : Option ResponseError :=
  match d.field? "code", d.field? "message", d.field? "data" with
  | some (.int code), some (.text message), some (.json v) =>
    some ⟨Int32.ofInt code, message, some v⟩
  | some (.int code), some (.text message), some .absent =>
    some ⟨Int32.ofInt code, message, none⟩
  | _, _, _ => none

def members (e : ResponseError) : List (String × Json) :=
  [("code", .int e.code.toInt), ("message", .str e.message)] ++
    match e.data with
    | none => []
    | some v => [("data", v)]

def toJson (e : ResponseError) : Json := Json.ofMembers e.members

/-- The text of an error that is written by itself, its members in the order of declaration. -/
def text (e : ResponseError) : String := Json.text (.obj e.members)

def decode (v : Json) : Except DataError ResponseError := do
  return (ofDatum? (← Shape.decode shape v)).getD (ofCode .unknownErrorCode)

end ResponseError
end RpcPeer
