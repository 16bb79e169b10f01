import RpcPeer.Json.Error
import RpcPeer.Shape.Basic

/-! Between JSON trees and values: what a shape accepts, and how a value is written. -/
namespace RpcPeer

namespace Json

def found : Json → Found
  | null => .null
  | bool b => .bool b
  | int n => .int n
  | real x => .real x
  | str s => .text s
  | arr _ => .sequence
  | obj _ => .map

def mismatch (v : Json) (expected : String) : DataError := .invalidType v.found expected

end Json

namespace Shape

/-- An integer of the kind, or what is wrong with the number. -/
def decodeInt (k : IntKind) : Json → Except DataError Datum
  | .int n =>
    if k.least ≤ n && n ≤ k.greatest then .ok (.int n)
    else .error (.invalidValue (.int n) k.name)
  | v => .error (v.mismatch k.name)

def idTypeName : String := "MessageId"

def decodeId : Json → Except DataError Datum
  | .int n => if Json.inInt64 n then .ok (.int n) else .error (.noVariant idTypeName)
  | .str s => .ok (.text s)
  | _ => .error (.noVariant idTypeName)

/-- An enumeration is written as a name, or as an object that maps the name to `null`. -/
def decodeVariant (names : List String) (v : Json) : Except DataError Datum := do
  let pick (name : String) : Except DataError Datum :=
    if name ∈ names then .ok (.variant name) else .error (.unknownVariant name names)
  match v with
  | .str s => pick s
  | .obj [(name, content)] =>
    let d ← pick name
    if content.isNull then return d else throw (content.mismatch "unit")
  | .obj _ => throw (.invalidValue .map "map with a single key")
  | v => throw (v.mismatch "string or map")

/-- A field of a record, read by `read`. -/
structure FieldReader (ρ : Type) where
  name : String
  presence : Presence
  read : ρ

def FieldReader.missing (f : FieldReader ρ) : Option Datum :=
  match f.presence with
  | .required => none
  | .optional => some .absent
  | .default d => some d

/-- How an error speaks of a record with this many fields. -/
def recordLength (label : TypeLabel) (count : Nat) : String :=
  s!"struct {label.name} with {count} element" ++ (if count == 1 then "" else "s")

def structName (label : TypeLabel) : String := s!"struct {label.name}"

/-- Gives every field its value in the order of declaration; the first one that is missing and has
to be there is an error. -/
def assemble (read : List (String × Datum)) :
    List (FieldReader ρ) → Except DataError (List (String × Datum))
  | [] => .ok []
  | f :: fs => do
    let d ← match read.lookup f.name with
      | some d => pure d
      | none =>
        match f.missing with
        | some d => pure d
        | none => throw (.missingField f.name)
    return (f.name, d) :: (← assemble read fs)

/-- The members of an object, in their order; unknown names are passed over. -/
def decodeMembers (fields : List (FieldReader (Json → Except DataError Datum))) :
    List (String × Json) → Except DataError (List (String × Datum))
  | [] => .ok []
  | (name, v) :: rest => do
    match fields.find? (·.name == name) with
    | none => decodeMembers fields rest
    | some f =>
      let d ← f.read v
      return (name, d) :: (← decodeMembers fields rest)

/-- The items of a list, one for each field; `index` fields come before these. -/
def decodeItems (expected : String) (length : Nat) :
    Nat → List (FieldReader (Json → Except DataError Datum)) → List Json →
      Except DataError (List (String × Datum))
  | _, [], [] => .ok []
  | _, [], _ :: _ => .error (.invalidLength length "fewer elements in array")
  | index, f :: fs, v :: vs => do
    let d ← f.read v
    return (f.name, d) :: (← decodeItems expected length (index + 1) fs vs)
  | index, f :: fs, [] => do
    match f.missing with
    | none => throw (.invalidLength index expected)
    | some d => return (f.name, d) :: (← decodeItems expected length (index + 1) fs [])

def decodeRecord (label : TypeLabel) (fields : List (FieldReader (Json → Except DataError Datum))) :
    Json → Except DataError Datum
  | .obj ms => do return .record (← assemble (← decodeMembers fields ms) fields)
  | .arr vs => do
    return .record (← decodeItems (recordLength label fields.length) vs.length 0 fields vs)
  | v => .error (v.mismatch (structName label))

/-- Tries the alternatives in order and keeps the first that accepts. -/
def decodeFirst (v : Json) (index : Nat) (failed : List (String × DataError)) :
    List (String × (Json → Except DataError Datum)) → Except DataError Datum
  | [] => .error (.noAlternative failed.reverse)
  | (name, read) :: rest =>
    match read v with
    | .ok d => .ok (.alternative index d)
    | .error e => decodeFirst v (index + 1) ((name, e) :: failed) rest

mutual
def decode : Shape → Json → Except DataError Datum
  | unit, v => if v.isNull then .ok .unit else .error (v.mismatch "unit")
  | bool, .bool b => .ok (.bool b)
  | bool, v => .error (v.mismatch "a boolean")
  | int k, v => decodeInt k v
  | real, .real x => .ok (.real x)
  | real, .int n => .ok (.real (.ofInt n))
  | real, v => .error (v.mismatch "f64")
  | text, .str s => .ok (.text s)
  | text, v => .error (v.mismatch "a string")
  | json, v | raw, v => .ok (.json v)
  | id, v => decodeId v
  | option s, v => if v.isNull then .ok .absent else decode s v
  | list s, .arr vs => (vs.mapM (decode s)).map .list
  | list _, v => .error (v.mismatch "a sequence")
  | record l fs, v => decodeRecord l (fieldReaders fs) v
  | variants _ names, v => decodeVariant names v
  | either a b, v => decodeFirst v 0 [] [(a.typeName, decode a), (b.typeName, decode b)]
  | either3 a b c, v =>
    decodeFirst v 0 [] [(a.typeName, decode a), (b.typeName, decode b), (c.typeName, decode c)]
  | sealed _ reason, _ => .ok (.sealed reason)

def fieldReaders : List (String × Presence × Shape) →
    List (FieldReader (Json → Except DataError Datum))
  | [] => []
  | (name, presence, s) :: fs => ⟨name, presence, decode s⟩ :: fieldReaders fs
end

end Shape

namespace Datum

mutual
def toJson : Datum → Except DataError Json
  | unit | absent => .ok .null
  | bool b => .ok (.bool b)
  | int n => .ok (.int n)
  | real x => .ok (.real x)
  | text s | variant s => .ok (.str s)
  | json v => .ok v
  | list xs => do return .arr (← itemsToJson xs)
  | record fs => do return Json.ofMembers (← fieldsToJson fs)
  | alternative _ x => toJson x
  | sealed reason => .error (.unwritable reason)

def itemsToJson : List Datum → Except DataError (List Json)
  | [] => .ok []
  | x :: xs => do return (← toJson x) :: (← itemsToJson xs)

/-- Fields without a value are left out. -/
def fieldsToJson : List (String × Datum) → Except DataError (List (String × Json))
  | [] => .ok []
  | (_, absent) :: fs => fieldsToJson fs
  | (k, x) :: fs => do return (k, ← toJson x) :: (← fieldsToJson fs)
end

end Datum
end RpcPeer
