/-! UTF-8. Decoding tells where the first malformed sequence lies and how long it is. -/
namespace RpcPeer.Text.Utf8

/-- Why bytes are no UTF-8. -/
inductive Malformed
  /-- A sequence of `length` bytes at `offset` cannot be continued. -/
  | sequence (offset length : Nat)
  /-- The bytes end inside the sequence that starts at `offset`. -/
  | incomplete (offset : Nat)
  deriving DecidableEq

def Malformed.message : Malformed → String
  | .sequence offset length => s!"invalid utf-8 sequence of {length} bytes from index {offset}"
  | .incomplete offset => s!"incomplete utf-8 byte sequence from index {offset}"

def encode (cs : List Char) : List UInt8 := cs.flatMap String.utf8EncodeChar

def isTail (b : UInt8) : Bool := 0x80 ≤ b && b ≤ 0xBF

/-- The least and greatest second byte after `lead`: they rule out long forms, surrogates and
numbers above the last code point. -/
def secondRange (lead : UInt8) : UInt8 × UInt8 :=
  if lead == 0xE0 then (0xA0, 0xBF)
  else if lead == 0xED then (0x80, 0x9F)
  else if lead == 0xF0 then (0x90, 0xBF)
  else if lead == 0xF4 then (0x80, 0x8F)
  else (0x80, 0xBF)

def isSecond (lead b : UInt8) : Bool :=
  let (low, high) := secondRange lead
  low ≤ b && b ≤ high

/-- The length that the first byte announces, if it can start a sequence. -/
def announced (lead : UInt8) : Option Nat :=
  if lead < 0x80 then some 1
  else if 0xC2 ≤ lead && lead ≤ 0xDF then some 2
  else if 0xE0 ≤ lead && lead ≤ 0xEF then some 3
  else if 0xF0 ≤ lead && lead ≤ 0xF4 then some 4
  else none

private def bits (b : UInt8) : Nat := b.toNat % 64

def decodeFrom (offset : Nat) : List UInt8 → Except Malformed (List Char)
  | [] => .ok []
  | a :: rest =>
    match announced a with
    | none => .error (.sequence offset 1)
    | some 1 => (decodeFrom (offset + 1) rest).map (Char.ofNat a.toNat :: ·)
    | some 2 =>
      match rest with
      | [] => .error (.incomplete offset)
      | b :: rest =>
        if !isSecond a b then .error (.sequence offset 1)
        else (decodeFrom (offset + 2) rest).map (Char.ofNat (a.toNat % 32 * 64 + bits b) :: ·)
    | some 3 =>
      match rest with
      | [] => .error (.incomplete offset)
      | [b] => .error (if isSecond a b then .incomplete offset else .sequence offset 1)
      | b :: c :: rest =>
        if !isSecond a b then .error (.sequence offset 1)
        else if !isTail c then .error (.sequence offset 2)
        else
          (decodeFrom (offset + 3) rest).map
            (Char.ofNat (a.toNat % 16 * 4096 + bits b * 64 + bits c) :: ·)
    | some _ =>
      match rest with
      | [] => .error (.incomplete offset)
      | [b] => .error (if isSecond a b then .incomplete offset else .sequence offset 1)
      | [b, c] =>
        .error (if !isSecond a b then .sequence offset 1
          else if !isTail c then .sequence offset 2 else .incomplete offset)
      | b :: c :: d :: rest =>
        if !isSecond a b then .error (.sequence offset 1)
        else if !isTail c then .error (.sequence offset 2)
        else if !isTail d then .error (.sequence offset 3)
        else
          (decodeFrom (offset + 4) rest).map
            (Char.ofNat (a.toNat % 8 * 262144 + bits b * 4096 + bits c * 64 + bits d) :: ·)

def decode (bytes : List UInt8) : Except Malformed (List Char) := decodeFrom 0 bytes

end RpcPeer.Text.Utf8
