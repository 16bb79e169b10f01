import RpcPeer.Dialect.Basic
import RpcPeer.Shape.Read
import RpcPeer.Text.Fields

/-! Settings of a connection, from JSON text or from variables of the environment. -/
namespace RpcPeer

structure Settings where
  dialect : Dialect := .base
  /-- Requests without a response are given up when the input ends. -/
  abandonPending : Bool := false
  /-- A transcript of the messages is written. -/
  traceMessages : Bool := false
  deriving DecidableEq

inductive SettingsError
  | json (e : ReadError)
  | unknownDialect (name : String)
  | invalidFlag (name value : String)

def SettingsError.message : SettingsError → String
  | .json e => s!"invalid configuration: {e.message}"
  | .unknownDialect name => s!"unknown dialect '{name}'"
  | .invalidFlag name value => s!"invalid value '{value}' for {name}"

namespace Settings

def label : TypeLabel := ⟨s!"{Shape.libraryPath}::config", "EndpointConfig"⟩

/-- The type of settings as payloads; every field may be missing. -/
def shape : Shape :=
  .record label
    [("dialect", .default (Dialect.toDatum .base), Dialect.shape),
      ("abandonPendingOnClose", .default (.bool false), .bool),
      ("traceMessages", .default (.bool false), .bool)]

private def flag (d : Datum) (name : String) : Bool :=
  match d.field? name with
  | some (.bool b) => b
  | _ => false

def ofDatum (d : Datum) : Settings where
  dialect := ((d.field? "dialect").map Dialect.ofDatum).getD .base
  abandonPending := flag d "abandonPendingOnClose"
  traceMessages := flag d "traceMessages"

def toDatum (s : Settings) : Datum :=
  .record
    [("dialect", s.dialect.toDatum), ("abandonPendingOnClose", .bool s.abandonPending),
      ("traceMessages", .bool s.traceMessages)]

def ofText (text : String) : Except SettingsError Settings :=
  match shape.parse text with
  | .ok d => .ok (ofDatum d)
  | .error e => .error (.json e)

def dialectVariable : String := "DUPLEX_RPC_DIALECT"
def traceVariable : String := "DUPLEX_RPC_TRACE"
def abandonVariable : String := "DUPLEX_RPC_ABANDON_PENDING"

def parseFlag (name value : String) : Except SettingsError Bool :=
  let word := String.ofList (Text.lower (Text.trim value.toList))
  if word ∈ ["1", "true", "yes", "on"] then .ok true
  else if word ∈ ["0", "false", "no", "off", ""] then .ok false
  else .error (.invalidFlag name value)

def parseDialect (value : String) : Except SettingsError Dialect :=
  match Dialect.ofName? (String.ofList (Text.trim value.toList)) with
  | some d => .ok d
  | none => .error (.unknownDialect value)

def display (s : Settings) : String :=
  Text.fields "EndpointConfig"
    [("dialect", s.dialect.display), ("abandon_pending_on_close", toString s.abandonPending),
      ("trace_messages", toString s.traceMessages)]

/-- The default settings, changed by the variables that are set. -/
def ofEnvironment (lookup : String → Option String) :
    Except SettingsError (Settings × LogEntry) := do
  let s : Settings := {}
  let s ← match lookup dialectVariable with
    | none => pure s
    | some v => do pure { s with dialect := ← parseDialect v }
  let s ← match lookup traceVariable with
    | none => pure s
    | some v => do pure { s with traceMessages := ← parseFlag traceVariable v }
  let s ← match lookup abandonVariable with
    | none => pure s
    | some v => do pure { s with abandonPending := ← parseFlag abandonVariable v }
  return (s, ⟨.debug, s!"Loaded endpoint config from environment: {s.display}"⟩)

end Settings
end RpcPeer
