import RpcPeer.Json.Basic

/-!
Payload types as data. A `Shape` says which JSON a type accepts, a `Datum` is a value of such a
type; it holds all that its JSON form needs.
-/
namespace RpcPeer

/-- A value of a payload type. -/
inductive Datum
  | unit
  | bool (b : Bool)
  | int (n : Int)
  | real (x : Binary64)
  | text (s : String)
  | json (v : Json)
  /-- An optional value that is not there. -/
  | absent
  | list (items : List Datum)
  | record (fields : List (String × Datum))
  /-- A name of an enumeration. -/
  | variant (name : String)
  /-- The alternative of a union that was taken, counted from zero. -/
  | alternative (index : Nat) (value : Datum)
  /-- A value without a JSON form. -/
  | sealed (reason : String)

inductive IntKind
  | int64
  | int32
  | word32
  | word8
  deriving DecidableEq

namespace IntKind

def name : IntKind → String
  | int64 => "i64"
  | int32 => "i32"
  | word32 => "u32"
  | word8 => "u8"

def least : IntKind → Int
  | int64 => -9223372036854775808
  | int32 => -2147483648
  | word32 | word8 => 0

def greatest : IntKind → Int
  | int64 => 9223372036854775807
  | int32 => 2147483647
  | word32 => 4294967295
  | word8 => 255

end IntKind

/-- The name of a declared type, with the path that it is declared under. -/
structure TypeLabel where
  path : String
  name : String
  deriving DecidableEq

def TypeLabel.full (l : TypeLabel) : String := s!"{l.path}::{l.name}"

/-- What it means that a field of a record is missing. -/
inductive Presence
  /-- An error. -/
  | required
  /-- No value; a field without a value is not written. -/
  | optional
  /-- This value. -/
  | default (value : Datum)

inductive Shape
  | unit
  | bool
  | int (kind : IntKind)
  | real
  | text
  /-- Any tree, as a value of its own type. -/
  | json
  /-- Any tree, kept unresolved. -/
  | raw
  /-- A message id: an integer or a text. -/
  | id
  | option (value : Shape)
  | list (item : Shape)
  | record (label : TypeLabel) (fields : List (String × Presence × Shape))
  | variants (label : TypeLabel) (names : List String)
  | either (first second : Shape)
  | either3 (first second third : Shape)
  /-- Accepts any tree but its values have no JSON form. -/
  | sealed (label : TypeLabel) (reason : String)

namespace Datum

mutual
def same : Datum → Datum → Bool
  | unit, unit => true
  | bool a, bool b => a == b
  | int m, int n => m == n
  | real x, real y => x.same y
  | text s, text t => s == t
  | json v, json w => v == w
  | absent, absent => true
  | list xs, list ys => sameItems xs ys
  | record xs, record ys => sameFields xs ys
  | variant a, variant b => a == b
  | alternative i x, alternative j y => i == j && same x y
  | sealed a, sealed b => a == b
  | _, _ => false

def sameItems : List Datum → List Datum → Bool
  | [], [] => true
  | x :: xs, y :: ys => same x y && sameItems xs ys
  | _, _ => false

def sameFields : List (String × Datum) → List (String × Datum) → Bool
  | [], [] => true
  | (k, x) :: xs, (l, y) :: ys => k == l && same x y && sameFields xs ys
  | _, _ => false
end

instance : BEq Datum := ⟨same⟩

def field? (name : String) : Datum → Option Datum
  | record fields => fields.lookup name
  | _ => none

end Datum

namespace Shape

/-- The path that the types of this library are declared under. -/
def libraryPath : String := "duplex_rpc"

def typeName : Shape → String
  | unit => "()"
  | bool => "bool"
  | int k => k.name
  | real => "f64"
  | text => "alloc::string::String"
  | json => "serde_json::value::Value"
  | raw => "json"
  | id => s!"{libraryPath}::jsonrpc::types::MessageId"
  | option s => s!"core::option::Option<{s.typeName}>"
  | list s => s!"alloc::vec::Vec<{s.typeName}>"
  | record l _ | variants l _ | sealed l _ => l.full
  | either a b => s!"{libraryPath}::jsonrpc::either::Either<{a.typeName}, {b.typeName}>"
  | either3 a b c =>
    s!"{libraryPath}::jsonrpc::either::Either3<{a.typeName}, {b.typeName}, {c.typeName}>"

end Shape
end RpcPeer
