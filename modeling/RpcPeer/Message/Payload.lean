import RpcPeer.Shape.Decode

/-! Payloads: the parameters or the result of a message, absent, unresolved or of a known type. -/
namespace RpcPeer

inductive Payload
  | absent
  /-- An unresolved tree. -/
  | json (v : Json)
  /-- A value of the type of this name. -/
  | typed (typeName : String) (value : Datum)

namespace Payload

def isAbsent : Payload → Bool
  | absent => true
  | _ => false

def isTyped : Payload → Bool
  | typed .. => true
  | _ => false

def typeName : Payload → String
  | absent => "none"
  | json _ => "json"
  | typed name _ => name

def toJson : Payload → Except DataError (Option Json)
  | absent => .ok none
  | json v => .ok (some v)
  | typed _ d => d.toJson.map some

/-- The JSON form as a tree, where no form at all is `null`. -/
def tree (p : Payload) : Json :=
  match p.toJson with
  | .ok (some v) => v
  | _ => .null

def isNull (p : Payload) : Bool :=
  match p.toJson with
  | .ok (some v) => v.isNull
  | _ => false

/-- Equality of payloads. Values of one type are compared as such, values of two types differ;
otherwise the JSON forms decide, where `null` and absence are one. -/
def same : Payload → Payload → Bool
  | absent, absent => true
  | json v, json w => v == w
  | typed s d, typed t e => s == t && d == e
  | absent, p | p, absent => p.isNull
  | p, q =>
    match p.toJson, q.toJson with
    | .ok (some v), .ok (some w) => v == w
    | _, _ => false

instance : BEq Payload := ⟨same⟩

/-- The payload as a value of a shape. A value of that type is taken as it is; anything else goes
through its JSON form, and absence is read as `null`. -/
def decode (s : Shape) : Payload → Except DataError Datum
  | absent => s.decode .null
  | json v => s.decode v
  | typed name d => if name == s.typeName then .ok d else do s.decode (← d.toJson)

end Payload

def Shape.resolve (s : Shape) (v : Json) : Except DataError Payload :=
  match s with
  | raw => .ok (.json v)
  | s => (s.decode v).map (.typed s.typeName)

def Shape.payload (s : Shape) (d : Datum) : Payload :=
  match s, d with
  | raw, .json v => .json v
  | s, d => .typed s.typeName d

end RpcPeer
