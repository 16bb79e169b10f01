import RpcPeer.Json.Basic
import RpcPeer.Json.Shortest

/-! JSON text, on one line or indented by two blanks. -/
namespace RpcPeer.Json

def hexDigit (n : Nat) : Char := Nat.digitChar (n % 16)

/-- How one character stands in a string: only quotes, backslashes and controls are escaped. -/
def escape (c : Char) : List Char :=
  if c == '"' then ['\\', '"']
  else if c == '\\' then ['\\', '\\']
  else if c == '\x08' then ['\\', 'b']
  else if c == '\x0c' then ['\\', 'f']
  else if c == '\n' then ['\\', 'n']
  else if c == '\r' then ['\\', 'r']
  else if c == '\t' then ['\\', 't']
  else if c.toNat < 32 then ['\\', 'u', '0', '0', hexDigit (c.toNat / 16), hexDigit c.toNat]
  else [c]

def printString (s : String) : List Char := '"' :: (s.toList.flatMap escape ++ ['"'])

def printInt (n : Int) : List Char :=
  if n < 0 then '-' :: Nat.toDigits 10 n.natAbs else Nat.toDigits 10 n.natAbs

mutual
def print : Json → List Char
  | null => ['n', 'u', 'l', 'l']
  | bool true => ['t', 'r', 'u', 'e']
  | bool false => ['f', 'a', 'l', 's', 'e']
  | int n => printInt n
  | real x => x.render .json
  | str s => printString s
  | arr items => '[' :: (printItems items ++ [']'])
  | obj members => '\x7b' :: (printMembers members ++ ['\x7d'])

def printItems : List Json → List Char
  | [] => []
  | [x] => print x
  | x :: xs => print x ++ ',' :: printItems xs

def printMembers : List (String × Json) → List Char
  | [] => []
  | [(k, v)] => printString k ++ ':' :: print v
  | (k, v) :: rest => printString k ++ ':' :: (print v ++ ',' :: printMembers rest)
end

def text (v : Json) : String := String.ofList v.print

def newline (level : Nat) : List Char := '\n' :: List.replicate (2 * level) ' '

mutual
/-- The text with one item or member a line; empty lists and objects stay on theirs. -/
def prettyPrint (level : Nat) : Json → List Char
  | arr [] => ['[', ']']
  | arr (x :: xs) =>
    '[' :: (prettyItems (level + 1) (x :: xs) ++ newline level ++ [']'])
  | obj [] => ['\x7b', '\x7d']
  | obj (m :: ms) =>
    '\x7b' :: (prettyMembers (level + 1) (m :: ms) ++ newline level ++ ['\x7d'])
  | v => v.print

def prettyItems (level : Nat) : List Json → List Char
  | [] => []
  | [x] => newline level ++ prettyPrint level x
  | x :: xs => newline level ++ prettyPrint level x ++ ',' :: prettyItems level xs

def prettyMembers (level : Nat) : List (String × Json) → List Char
  | [] => []
  | [(k, v)] => newline level ++ printString k ++ ':' :: ' ' :: prettyPrint level v
  | (k, v) :: rest =>
    newline level ++ printString k ++ ':' :: ' ' :: (prettyPrint level v ++
      ',' :: prettyMembers level rest)
end

def prettyText (v : Json) : String := String.ofList (v.prettyPrint 0)

end RpcPeer.Json
