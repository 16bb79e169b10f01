import RpcPeer.Json.Basic
import RpcPeer.Json.Error
import RpcPeer.Text.Numeral

/-!
Reading JSON text. A reader takes the characters that are left and returns a value with the
characters after it. Lists and objects are read through `nextItem`, `nextKey` and their closings,
which typed readers share.
-/
namespace RpcPeer.Json

abbrev Reader (α : Type) := List Char → Except ReadError (α × List Char)

def maxDepth : Nat := 127

def isSpace (c : Char) : Bool := c == ' ' || c == '\n' || c == '\t' || c == '\r'

def skipSpace (cs : List Char) : List Char := cs.dropWhile isSpace

/-- Reads the letters of `null`, `true` or `false` that follow the first. -/
def ident : List Char → List Char → Except ReadError (List Char)
  | [], cs => .ok cs
  | _ :: _, [] => .error .eofInValue
  | w :: ws, c :: cs => if w == c then ident ws cs else .error .expectedIdent

def hexValue? (c : Char) : Option Nat :=
  let n := c.toNat
  if 48 ≤ n && n ≤ 57 then some (n - 48)
  else if 97 ≤ n && n ≤ 102 then some (n - 87)
  else if 65 ≤ n && n ≤ 70 then some (n - 55)
  else none

def fourBytes (cs : List Char) : Bool := 4 ≤ cs.foldl (fun n c => n + c.utf8Size) 0

/-- Four hexadecimal digits. Where four bytes are left but are no such digits the escape is
invalid; where fewer are left the text has ended. -/
def hexUnit (cs : List Char) : Except ReadError Nat :=
  match cs with
  | a :: b :: c :: d :: _ =>
    match hexValue? a, hexValue? b, hexValue? c, hexValue? d with
    | some a, some b, some c, some d => .ok (4096 * a + 256 * b + 16 * c + d)
    | _, _, _, _ => .error .invalidEscape
  | _ => .error (if fourBytes cs then .invalidEscape else .eofInString)

/-- The second half of a surrogate pair whose first half is `high`. -/
def lowSurrogate (high : Nat) : List Char → Except ReadError Char
  | [] => .error .eofInString
  | '\\' :: [] => .error .eofInString
  | '\\' :: 'u' :: cs => do
    let low ← hexUnit cs
    if low < 0xDC00 || 0xDFFF < low then throw .loneSurrogate
    else return Char.ofNat ((high - 0xD800) * 1024 + (low - 0xDC00) + 0x10000)
  | _ => .error .hexEscapeEnd

/-- The character that an escape stands for, and how many characters follow the backslash. -/
def escaped : List Char → Except ReadError (Char × Nat)
  | [] => .error .eofInString
  | '"' :: _ => .ok ('"', 1)
  | '\\' :: _ => .ok ('\\', 1)
  | '/' :: _ => .ok ('/', 1)
  | 'b' :: _ => .ok ('\x08', 1)
  | 'f' :: _ => .ok ('\x0c', 1)
  | 'n' :: _ => .ok ('\n', 1)
  | 'r' :: _ => .ok ('\r', 1)
  | 't' :: _ => .ok ('\t', 1)
  | 'u' :: cs => do
    let n ← hexUnit cs
    if 0xDC00 ≤ n && n ≤ 0xDFFF then throw .loneSurrogate
    else if n < 0xD800 || 0xDBFF < n then return (Char.ofNat n, 5)
    else return (← lowSurrogate n (cs.drop 4), 11)
  | _ => .error .invalidEscape

/-- The characters up to the closing quote; the first `skip` ones belong to an escape that has been
read. -/
def stringBody : Nat → Reader (List Char)
  | _, [] => .error .eofInString
  | skip + 1, _ :: cs => stringBody skip cs
  | 0, c :: cs =>
    if c == '"' then .ok ([], cs)
    else if c == '\\' then do
      let (d, length) ← escaped cs
      let (ds, rest) ← stringBody length cs
      return (d :: ds, rest)
    else if c.toNat < 32 then .error .controlCharacter
    else do
      let (ds, rest) ← stringBody 0 cs
      return (c :: ds, rest)

def string (cs : List Char) : Except ReadError (String × List Char) := do
  let (ds, rest) ← stringBody 0 cs
  return (String.ofList ds, rest)

/-- Gathers digits while the number fits 64 bits; also tells how many digits are left over. -/
def gather (n : Nat) : List Char → Nat × Nat
  | [] => (n, 0)
  | c :: cs =>
    let m := 10 * n + Text.digitValue c
    if m < 18446744073709551616 then gather m cs else (n, cs.length + 1)

/-- The real number with these digits, or an error if it is too great. -/
def realOf (negative : Bool) (digits : Nat) (exponent : Int) : Except ReadError Json :=
  match Binary64.ofDecimal digits exponent with
  | some x => .ok (real { x with negative })
  | none => .error .numberOutOfRange

/-- The greatest exponent that is taken at its value. -/
def maxExponent : Nat := 2147483647

def exponentPart (negative : Bool) (digits : Nat) (start : Int) : Reader Json := fun cs => do
  let (minus, cs) := match cs with
    | '+' :: cs => (false, cs)
    | '-' :: cs => (true, cs)
    | cs => (false, cs)
  let ds := cs.takeWhile Char.isDigit
  let rest := cs.dropWhile Char.isDigit
  if ds.isEmpty then throw (if rest.isEmpty then .eofInValue else .invalidNumber)
  let e := Text.ofDigits ds
  if maxExponent < e then
    if digits != 0 && !minus then throw .numberOutOfRange
    else return (real { Binary64.zero with negative }, rest)
  let e : Int := if minus then -(e : Int) else e
  return (← realOf negative digits (start + e), rest)

def fractionPart (negative : Bool) (digits : Nat) (start : Int) : Reader Json := fun cs => do
  let ds := cs.takeWhile Char.isDigit
  let rest := cs.dropWhile Char.isDigit
  if ds.isEmpty then throw (if rest.isEmpty then .eofInValue else .invalidNumber)
  let (digits, extra) := gather digits ds
  let start := start - (ds.length - extra : Nat)
  match rest with
  | 'e' :: rest | 'E' :: rest => exponentPart negative digits start rest
  | rest => return (← realOf negative digits start, rest)

/-- A number, after its sign. Whole numbers that fit 64 bits are integers, but `-0` is real. -/
def number (negative : Bool) : Reader Json := fun cs => do
  let ds := cs.takeWhile Char.isDigit
  let rest := cs.dropWhile Char.isDigit
  match ds with
  | [] => throw (if rest.isEmpty then .eofInValue else .invalidNumber)
  | '0' :: _ :: _ => throw .invalidNumber
  | ds =>
    let (digits, extra) := gather 0 ds
    match rest with
    | '.' :: rest => fractionPart negative digits extra rest
    | 'e' :: rest | 'E' :: rest => exponentPart negative digits extra rest
    | rest =>
      if extra == 0 && !negative then return (int digits, rest)
      else if extra == 0 && digits != 0 && digits ≤ 9223372036854775808 then
        return (int (-digits), rest)
      else return (← realOf negative digits extra, rest)

/-- Is there another item? The text is left before it, or before the closing bracket. -/
def nextItem (first : Bool) : Reader Bool := fun cs =>
  match skipSpace cs with
  | [] => .error .eofInList
  | ']' :: cs => .ok (false, ']' :: cs)
  | ',' :: cs =>
    if first then .ok (true, ',' :: cs)
    else
      match skipSpace cs with
      | [] => .error .eofInValue
      | ']' :: _ => .error .trailingComma
      | cs => .ok (true, cs)
  | cs => if first then .ok (true, cs) else .error .expectedListEnd

/-- The closing bracket, where no further item may stand. -/
def endItems : Reader Unit := fun cs =>
  match skipSpace cs with
  | [] => .error .eofInList
  | ']' :: cs => .ok ((), cs)
  | ',' :: cs =>
    match skipSpace cs with
    | ']' :: _ => .error .trailingComma
    | _ => .error .trailingCharacters
  | _ => .error .trailingCharacters

/-- The name of the next member, if there is one. -/
def nextKey (first : Bool) : Reader (Option String) := fun cs =>
  match skipSpace cs with
  | [] => .error .eofInObject
  | '\x7d' :: cs => .ok (none, '\x7d' :: cs)
  | '"' :: cs =>
    if first then (string cs).map fun (s, cs) => (some s, cs) else .error .expectedObjectEnd
  | ',' :: cs =>
    if first then .error .keyNotString
    else
      match skipSpace cs with
      | [] => .error .eofInValue
      | '"' :: cs => (string cs).map fun (s, cs) => (some s, cs)
      | '\x7d' :: _ => .error .trailingComma
      | _ => .error .keyNotString
  | _ => .error (if first then .keyNotString else .expectedObjectEnd)

def colon : Reader Unit := fun cs =>
  match skipSpace cs with
  | [] => .error .eofInObject
  | ':' :: cs => .ok ((), cs)
  | _ => .error .expectedColon

/-- The closing brace, where no further member may stand. -/
def endMembers : Reader Unit := fun cs =>
  match skipSpace cs with
  | [] => .error .eofInObject
  | '\x7d' :: cs => .ok ((), cs)
  | ',' :: _ => .error .trailingComma
  | _ => .error .trailingCharacters

/-- All items, with the closing bracket. An item takes a character at least, so as many rounds as
there are characters are enough. -/
def itemsWithin (item : Reader α) : Nat → Bool → Reader (List α)
  | 0, _, _ => .error .eofInList
  | rounds + 1, first, cs => do
    let (more, cs) ← nextItem first cs
    if more then
      let (x, cs) ← item cs
      let (xs, cs) ← itemsWithin item rounds false cs
      return (x :: xs, cs)
    else
      let ((), cs) ← endItems cs
      return ([], cs)

def items (item : Reader α) : Reader (List α) := fun cs => itemsWithin item (cs.length + 1) true cs

def membersWithin (item : Reader α) : Nat → Bool → Reader (List (String × α))
  | 0, _, _ => .error .eofInObject
  | rounds + 1, first, cs => do
    match ← nextKey first cs with
    | (none, cs) =>
      let ((), cs) ← endMembers cs
      return ([], cs)
    | (some k, cs) =>
      let ((), cs) ← colon cs
      let (x, cs) ← item cs
      let (xs, cs) ← membersWithin item rounds false cs
      return ((k, x) :: xs, cs)

def members (item : Reader α) : Reader (List (String × α)) :=
  fun cs => membersWithin item (cs.length + 1) true cs

/-- Reads a value whose items are read by `nested`; without it nothing may nest. -/
def valueOver (nested : Option (Reader Json)) : Reader Json := fun cs =>
  match skipSpace cs with
  | [] => .error .eofInValue
  | 'n' :: cs => (ident ['u', 'l', 'l'] cs).map fun cs => (null, cs)
  | 't' :: cs => (ident ['r', 'u', 'e'] cs).map fun cs => (bool true, cs)
  | 'f' :: cs => (ident ['a', 'l', 's', 'e'] cs).map fun cs => (bool false, cs)
  | '-' :: cs => number true cs
  | '"' :: cs => (string cs).map fun (s, cs) => (str s, cs)
  | '[' :: cs =>
    match nested with
    | none => .error .recursionLimit
    | some nested => (items nested cs).map fun (xs, cs) => (arr xs, cs)
  | '\x7b' :: cs =>
    match nested with
    | none => .error .recursionLimit
    | some nested => (members nested cs).map fun (ms, cs) => (ofMembers ms, cs)
  | c :: cs => if c.isDigit then number false (c :: cs) else .error .expectedValue

/-- Reads a value that nests at most `depth` levels. -/
def value : Nat → Reader Json
  | 0 => valueOver none
  | depth + 1 => valueOver (some (value depth))

def finish (cs : List Char) : Except ReadError Unit :=
  if (skipSpace cs).isEmpty then .ok () else .error .trailingCharacters

def whole (reader : Reader α) (text : String) : Except ReadError α := do
  let (x, rest) ← reader text.toList
  finish rest
  return x

def parse (text : String) : Except ReadError Json := whole (value maxDepth) text

end RpcPeer.Json
