import RpcPeer.Json.Shortest
import RpcPeer.Text.Quoted

/-! Why a JSON text or tree is refused, and the wording of each cause. -/
namespace RpcPeer

/-- What stood where something else was expected. -/
inductive Found
  | null
  | bool (b : Bool)
  | int (n : Int)
  | real (x : Binary64)
  | text (s : String)
  | sequence
  | map

def Found.describe : Found → String
  | .null => "null"
  | .bool b => s!"boolean `{b}`"
  | .int n => s!"integer `{n}`"
  | .real x => s!"floating point `{String.ofList (x.render .json)}`"
  | .text s => s!"string {Text.quoted s}"
  | .sequence => "sequence"
  | .map => "map"

/-- A well-formed value that does not fit its type. -/
inductive DataError
  | invalidType (found : Found) (expected : String)
  | invalidValue (found : Found) (expected : String)
  | invalidLength (length : Nat) (expected : String)
  | missingField (name : String)
  | duplicateField (name : String)
  | unknownVariant (name : String) (expected : List String)
  /-- No form of a type that is told by its form alone. -/
  | noVariant (typeName : String)
  /-- A union whose alternatives all refused, each for its own reason. -/
  | noAlternative (attempts : List (String × DataError))
  /-- A value that has no JSON form. -/
  | unwritable (reason : String)

/-- The names of an enumeration, as a sentence lists them. -/
def oneOf : List String → String
  | [] => "there are no variants"
  | [a] => s!"expected `{a}`"
  | [a, b] => s!"expected `{a}` or `{b}`"
  | names => "expected one of " ++ ", ".intercalate (names.map fun n => s!"`{n}`")

mutual
def DataError.message : DataError → String
  | .invalidType found expected => s!"invalid type: {found.describe}, expected {expected}"
  | .invalidValue found expected => s!"invalid value: {found.describe}, expected {expected}"
  | .invalidLength length expected => s!"invalid length {length}, expected {expected}"
  | .missingField name => s!"missing field `{name}`"
  | .duplicateField name => s!"duplicate field `{name}`"
  | .unknownVariant name expected => s!"unknown variant `{name}`, {oneOf expected}"
  | .noVariant typeName => s!"data did not match any variant of untagged enum {typeName}"
  | .noAlternative attempts =>
    let names := " | ".intercalate (attempts.map (·.1))
    let reasons := "; ".intercalate (DataError.reasons attempts)
    s!"value matches none of the alternatives ({names}): {reasons}"
  | .unwritable reason => reason

def DataError.reasons : List (String × DataError) → List String
  | [] => []
  | (name, e) :: rest => s!"{name}: {e.message}" :: DataError.reasons rest
end

/-- The kinds of cause that callers tell apart. -/
inductive Cause
  | grammar
  | truncated
  | data
  deriving DecidableEq

/-- Why a JSON text is refused. -/
inductive ReadError
  | eofInList
  | eofInObject
  | eofInString
  | eofInValue
  | expectedColon
  | expectedListEnd
  | expectedObjectEnd
  | expectedIdent
  | expectedValue
  | invalidEscape
  | invalidNumber
  | numberOutOfRange
  | controlCharacter
  | keyNotString
  | loneSurrogate
  | trailingComma
  | trailingCharacters
  | hexEscapeEnd
  | recursionLimit
  | data (e : DataError)

def ReadError.message : ReadError → String
  | .eofInList => "EOF while parsing a list"
  | .eofInObject => "EOF while parsing an object"
  | .eofInString => "EOF while parsing a string"
  | .eofInValue => "EOF while parsing a value"
  | .expectedColon => "expected `:`"
  | .expectedListEnd => "expected `,` or `]`"
  | .expectedObjectEnd => "expected `,` or `\x7d`"
  | .expectedIdent => "expected ident"
  | .expectedValue => "expected value"
  | .invalidEscape => "invalid escape"
  | .invalidNumber => "invalid number"
  | .numberOutOfRange => "number out of range"
  | .controlCharacter =>
    "control character (\\u0000-\\u001F) found while parsing a string"
  | .keyNotString => "key must be a string"
  | .loneSurrogate => "lone leading surrogate in hex escape"
  | .trailingComma => "trailing comma"
  | .trailingCharacters => "trailing characters"
  | .hexEscapeEnd => "unexpected end of hex escape"
  | .recursionLimit => "recursion limit exceeded"
  | .data e => e.message

def ReadError.cause : ReadError → Cause
  | .eofInList | .eofInObject | .eofInString | .eofInValue => .truncated
  | .data _ => .data
  | _ => .grammar

end RpcPeer
