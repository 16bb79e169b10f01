import RpcPeer.Json.Binary64

/-! JSON trees. The members of an object are kept in the order of their names. -/
namespace RpcPeer

inductive Json
  | null
  | bool (b : Bool)
  /-- An integer literal from `-2 ^ 63` to below `2 ^ 64`. -/
  | int (n : Int)
  | real (x : Binary64)
  | str (s : String)
  | arr (items : List Json)
  | obj (members : List (String × Json))

namespace Json

instance : Inhabited Json := ⟨null⟩

mutual
/-- Equality of trees; an integer and a real number are never equal. -/
def same : Json → Json → Bool
  | null, null => true
  | bool a, bool b => a == b
  | int m, int n => m == n
  | real x, real y => x.same y
  | str s, str t => s == t
  | arr xs, arr ys => sameItems xs ys
  | obj xs, obj ys => sameMembers xs ys
  | _, _ => false

def sameItems : List Json → List Json → Bool
  | [], [] => true
  | x :: xs, y :: ys => same x y && sameItems xs ys
  | _, _ => false

def sameMembers : List (String × Json) → List (String × Json) → Bool
  | [], [] => true
  | (k, x) :: xs, (l, y) :: ys => k == l && same x y && sameMembers xs ys
  | _, _ => false
end

instance : BEq Json := ⟨same⟩

def isNull : Json → Bool
  | null => true
  | _ => false

/-- Puts a member at its place; an earlier member of that name is replaced. -/
def insertMember (name : String) (v : Json) : List (String × Json) → List (String × Json)
  | [] => [(name, v)]
  | (k, w) :: rest =>
    if name < k then (name, v) :: (k, w) :: rest
    else if name = k then (name, v) :: rest
    else (k, w) :: insertMember name v rest

/-- The object with these members; of two with one name the later counts. -/
def ofMembers (members : List (String × Json)) : Json :=
  obj (members.foldl (fun acc (k, v) => insertMember k v acc) [])

def member? (name : String) : Json → Option Json
  | obj members => members.lookup name
  | _ => none

def str? : Json → Option String
  | str s => some s
  | _ => none

/-- The integers of 64 bits with a sign. -/
def inInt64 (n : Int) : Bool := -9223372036854775808 ≤ n && n ≤ 9223372036854775807

def int64? : Json → Option Int64
  | int n => if inInt64 n then some (Int64.ofInt n) else none
  | _ => none

end Json
end RpcPeer
