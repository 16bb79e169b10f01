import RpcPeer.Json.Skip
import RpcPeer.Shape.Decode

/-!
Reading a value of a shape straight from text. Members come in the order of the text, so a name may
come twice, and what no field asks for is passed over unread.
-/
namespace RpcPeer.Shape
open Json

/-- The error for a value that cannot start here: the value is named if it is simple. -/
def mismatchAt (expected : String) (cs : List Char) : ReadError :=
  let wrong (found : Found) : ReadError := .data (.invalidType found expected)
  let named (r : Except ReadError Json) : ReadError :=
    match r with
    | .ok v => .data (v.mismatch expected)
    | .error e => e
  match cs with
  | '[' :: _ => wrong .sequence
  | '\x7b' :: _ => wrong .map
  | cs => named ((value 0 cs).map (·.1))

/-- Reads with `read` where the text starts with a character of `starts`. -/
def startingWith (starts : Char → Bool) (expected : String) (read : Reader α) : Reader α :=
  fun cs => match skipSpace cs with
  | [] => .error .eofInValue
  | c :: cs => if starts c then read (c :: cs) else .error (mismatchAt expected (c :: cs))

/-- Reads a simple value and decodes it as a tree. -/
def readSimple (starts : Char → Bool) (expected : String)
    (decode : Json → Except DataError Datum) : Reader Datum :=
  startingWith starts expected fun cs => do
    let (v, rest) ← value 0 cs
    match decode v with
    | .ok d => return (d, rest)
    | .error e => throw (.data e)

def readTree (depth : Nat) (decode : Json → Except DataError Datum) : Reader Datum := fun cs => do
  let (v, rest) ← value depth cs
  match decode v with
  | .ok d => return (d, rest)
  | .error e => throw (.data e)

def startsNumber (c : Char) : Bool := c == '-' || c.isDigit

/-- A name of an enumeration, without its quotes looked at. -/
def readName (names : List String) : Reader Datum :=
  startingWith (· == '"') "variant identifier" fun cs => do
    let (s, rest) ← string cs.tail
    if s ∈ names then return (.variant s, rest) else throw (.data (.unknownVariant s names))

def readUnit : Reader Datum := readSimple (· == 'n') "unit" fun _ => .ok .unit

def readVariant (names : List String) (depth : Nat) : Reader Datum := fun cs =>
  match skipSpace cs with
  | [] => .error .eofInValue
  | '"' :: cs => readName names ('"' :: cs)
  | '\x7b' :: cs =>
    if depth == 0 then .error .recursionLimit
    else do
      let (d, cs) ← readName names cs
      let ((), cs) ← colon cs
      let (_, cs) ← readUnit cs
      match skipSpace cs with
      | [] => throw .eofInObject
      | '\x7d' :: cs => return (d, cs)
      | _ => throw .expectedValue
  | _ => .error .expectedValue

/-- The members of a record, with the closing brace. -/
def readMembers (fields : List (FieldReader (Reader Datum))) :
    Nat → Bool → List (String × Datum) → Reader (List (String × Datum))
  | 0, _, _ => fun _ => .error .eofInObject
  | rounds + 1, first, read => fun cs => do
    match ← nextKey first cs with
    | (none, cs) => return (read, cs)
    | (some k, cs) =>
      match fields.find? (·.name == k) with
      | none =>
        let ((), cs) ← colon cs
        readMembers fields rounds false read (← skipValue cs)
      | some f =>
        if (read.lookup k).isSome then throw (.data (.duplicateField k))
        let ((), cs) ← colon cs
        let (d, cs) ← f.read cs
        readMembers fields rounds false ((k, d) :: read) cs

/-- The items of a record that is written as a list. -/
def readItems (expected : String) (index : Nat) (first : Bool) :
    List (FieldReader (Reader Datum)) → Reader (List (String × Datum))
  | [] => fun cs => .ok ([], cs)
  | f :: fs => fun cs => do
    let (more, cs) ← nextItem first cs
    if more then
      let (d, cs) ← f.read cs
      let (ds, cs) ← readItems expected (index + 1) false fs cs
      return ((f.name, d) :: ds, cs)
    else
      match f.missing with
      | none => throw (.data (.invalidLength index expected))
      | some d =>
        let (ds, cs) ← readItems expected (index + 1) first fs cs
        return ((f.name, d) :: ds, cs)

def readRecord (label : TypeLabel) (depth : Nat) (fields : List (FieldReader (Reader Datum))) :
    Reader Datum := fun cs =>
  match skipSpace cs with
  | [] => .error .eofInValue
  | '[' :: cs =>
    if depth == 0 then .error .recursionLimit
    else do
      let (ds, cs) ← readItems (recordLength label fields.length) 0 true fields cs
      let ((), cs) ← endItems cs
      return (.record ds, cs)
  | '\x7b' :: cs =>
    if depth == 0 then .error .recursionLimit
    else do
      let (read, cs) ← readMembers fields (cs.length + 1) true [] cs
      match assemble read fields with
      | .error e => throw (.data e)
      | .ok ds =>
        let ((), cs) ← endMembers cs
        return (.record ds, cs)
  | cs => .error (mismatchAt (structName label) cs)

mutual
/-- Reads a value that nests at most `depth` levels. -/
def read : Shape → Nat → Reader Datum
  | unit, _ => readUnit
  | bool, _ => readSimple (fun c => c == 't' || c == 'f') "a boolean" (decode bool)
  | int k, _ => readSimple startsNumber k.name (decode (int k))
  | real, _ => readSimple startsNumber "f64" (decode real)
  | text, _ => readSimple (· == '"') "a string" (decode text)
  | json, depth | raw, depth => readTree depth fun v => .ok (.json v)
  | id, depth => readTree depth decodeId
  | option s, depth => fun cs =>
    match skipSpace cs with
    | 'n' :: cs => (ident ['u', 'l', 'l'] cs).map fun cs => (.absent, cs)
    | cs => read s depth cs
  | list s, depth =>
    startingWith (· == '[') "a sequence" fun cs =>
      if depth == 0 then .error .recursionLimit
      else (items (read s (depth - 1)) cs.tail).map fun (ds, cs) => (.list ds, cs)
  | record l fs, depth => readRecord l depth (textFieldReaders fs (depth - 1))
  | variants _ names, depth => readVariant names depth
  | either a b, depth => readTree depth (decode (either a b))
  | either3 a b c, depth => readTree depth (decode (either3 a b c))
  | sealed _ reason, depth => readTree depth fun _ => .ok (.sealed reason)

def textFieldReaders : List (String × Presence × Shape) → Nat → List (FieldReader (Reader Datum))
  | [], _ => []
  | (name, presence, s) :: fs, depth => ⟨name, presence, read s depth⟩ :: textFieldReaders fs depth
end

def parse (s : Shape) (text : String) : Except ReadError Datum := whole (s.read maxDepth) text

end RpcPeer.Shape
