import RpcPeer.Json.Reader

/-!
Passing over a value that nobody asks for. Nesting is not limited here, numbers need not be in
range and escapes need not form characters.
-/
namespace RpcPeer.Json

/-- The rest of a string, whose first `skip` characters belong to an escape. -/
def skipString : Nat → List Char → Except ReadError (List Char)
  | _, [] => .error .eofInString
  | skip + 1, _ :: cs => skipString skip cs
  | 0, c :: cs =>
    if c == '"' then .ok cs
    else if c == '\\' then
      match cs with
      | [] => .error .eofInString
      | 'u' :: ds => do
        let _ ← hexUnit ds
        skipString 5 cs
      | d :: _ =>
        if d ∈ ['"', '\\', '/', 'b', 'f', 'n', 'r', 't'] then skipString 1 cs
        else .error .invalidEscape
    else if c.toNat < 32 then .error .controlCharacter
    else skipString 0 cs

def skipExponent (cs : List Char) : Except ReadError (List Char) :=
  let cs := match cs with
    | '+' :: cs | '-' :: cs => cs
    | cs => cs
  match cs with
  | c :: cs => if c.isDigit then .ok (cs.dropWhile Char.isDigit) else .error .invalidNumber
  | [] => .error .invalidNumber

def skipFraction (cs : List Char) : Except ReadError (List Char) :=
  match cs with
  | c :: cs =>
    if c.isDigit then
      match cs.dropWhile Char.isDigit with
      | 'e' :: cs | 'E' :: cs => skipExponent cs
      | cs => .ok cs
    else .error .invalidNumber
  | [] => .error .invalidNumber

def skipNumber (cs : List Char) : Except ReadError (List Char) := do
  let rest ← match cs with
    | '0' :: c :: cs => if c.isDigit then throw .invalidNumber else pure (c :: cs)
    | c :: cs => if c.isDigit then pure (cs.dropWhile Char.isDigit) else throw .invalidNumber
    | [] => throw .invalidNumber
  match rest with
  | '.' :: rest => skipFraction rest
  | 'e' :: rest | 'E' :: rest => skipExponent rest
  | rest => return rest

def skipKey (cs : List Char) : Except ReadError (List Char) :=
  match skipSpace cs with
  | [] => .error .eofInObject
  | '"' :: cs => do
    match skipSpace (← skipString 0 cs) with
    | [] => throw .eofInObject
    | ':' :: cs => return cs
    | _ => throw .expectedColon
  | _ => .error .keyNotString

mutual
/-- Every round takes a character at least. -/
def skipWithin : Nat → List Char → Except ReadError (List Char)
  | 0, _ => .error .eofInValue
  | rounds + 1, cs =>
    match skipSpace cs with
    | [] => .error .eofInValue
    | 'n' :: cs => ident ['u', 'l', 'l'] cs
    | 't' :: cs => ident ['r', 'u', 'e'] cs
    | 'f' :: cs => ident ['a', 'l', 's', 'e'] cs
    | '-' :: cs => skipNumber cs
    | '"' :: cs => skipString 0 cs
    | '[' :: cs =>
      match skipSpace cs with
      | [] => .error .eofInList
      | ']' :: cs => .ok cs
      | cs => do skipItems rounds (← skipWithin rounds cs)
    | '\x7b' :: cs =>
      match skipSpace cs with
      | [] => .error .eofInObject
      | '\x7d' :: cs => .ok cs
      | cs => do skipMembers rounds (← skipWithin rounds (← skipKey cs))
    | c :: cs => if c.isDigit then skipNumber (c :: cs) else .error .expectedValue

def skipItems : Nat → List Char → Except ReadError (List Char)
  | 0, _ => .error .eofInList
  | rounds + 1, cs =>
    match skipSpace cs with
    | [] => .error .eofInList
    | ']' :: cs => .ok cs
    | ',' :: cs => do skipItems rounds (← skipWithin rounds cs)
    | _ => .error .expectedListEnd

def skipMembers : Nat → List Char → Except ReadError (List Char)
  | 0, _ => .error .eofInObject
  | rounds + 1, cs =>
    match skipSpace cs with
    | [] => .error .eofInObject
    | '\x7d' :: cs => .ok cs
    | ',' :: cs => do skipMembers rounds (← skipWithin rounds (← skipKey cs))
    | _ => .error .expectedObjectEnd
end

def skipValue (cs : List Char) : Except ReadError (List Char) := skipWithin (cs.length + 1) cs

end RpcPeer.Json
