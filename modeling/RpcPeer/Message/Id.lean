import RpcPeer.Shape.Decode
import RpcPeer.Text.Numeral

/-! Message ids: numbers of 64 bits or texts. The number `1` and the text `1` are two ids. -/
namespace RpcPeer

inductive MessageId
  | number (n : Int64)
  | text (s : String)
  deriving DecidableEq

namespace MessageId

/-- The number that an id stands for where only numbers are written. -/
def number? : MessageId → Option Int64
  | number n => some n
  | text s =>
    match Text.integer? s.toList with
    | some n => if Json.inInt64 n then some (Int64.ofInt n) else none
    | none => none

def display : MessageId → String
  | number n => toString n.toInt
  | text s => s

def toJson : MessageId → Json
  | number n => .int n.toInt
  | text s => .str s

def toDatum : MessageId → Datum
  | number n => .int n.toInt
  | text s => .text s

def ofDatum? : Datum → Option MessageId
  | .int n => some (number (Int64.ofInt n))
  | .text s => some (text s)
  | _ => none

end MessageId
end RpcPeer
