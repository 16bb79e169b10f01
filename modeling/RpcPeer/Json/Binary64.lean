/-!
Finite floating-point numbers of 64 bits. Arithmetic is exact on natural numbers; each operation
rounds once, to the nearest number, ties to the even mantissa.
-/
namespace RpcPeer

/-- The number `±mantissa · 2 ^ exponent`. -/
structure Binary64 where
  negative : Bool
  mantissa : Nat
  exponent : Int
  deriving DecidableEq

namespace Binary64

def minExponent : Int := -1074
def maxExponent : Int := 971

/-- The value of the leading bit of a mantissa of 53 bits, `2 ^ 52`. -/
def hiddenBit : Nat := 4503599627370496

def zero : Binary64 := ⟨false, 0, minExponent⟩

def isZero (x : Binary64) : Bool := x.mantissa == 0

def neg (x : Binary64) : Binary64 := { x with negative := !x.negative }

/-- Numerical equality: the two zeros are one number. -/
def same (x y : Binary64) : Bool := x == y || (x.isZero && y.isZero)

/-- The integer nearest to `num / den`; a midpoint goes to the even neighbour. -/
def nearest (num den : Nat) : Nat :=
  let q := num / den
  let r := num % den
  if 2 * r < den then q else if den < 2 * r then q + 1 else q + q % 2

/-- Does `2 ^ k ≤ num / den` hold? -/
def powLe (k : Int) (num den : Nat) : Bool :=
  if 0 ≤ k then den * Nat.pow 2 k.toNat ≤ num else den ≤ num * Nat.pow 2 (-k).toNat

/-- The greatest `k` with `2 ^ k ≤ num / den`. -/
def log2Quotient (num den : Nat) : Int :=
  let k : Int := (num.log2 : Int) - den.log2
  if powLe k num den then k else k - 1

/-- `num / den` in units of `2 ^ e`, rounded. -/
def inUnits (num den : Nat) (e : Int) : Nat :=
  if 0 ≤ e then nearest num (den * Nat.pow 2 e.toNat)
  else nearest (num * Nat.pow 2 (-e).toNat) den

/-- The double nearest to `±num / den`; none beyond the greatest one. -/
def ofQuotient (negative : Bool) (num den : Nat) : Option Binary64 :=
  if num == 0 then some { zero with negative }
  else
    let e := max minExponent (log2Quotient num den - 52)
    let m := inUnits num den e
    let (m, e) := if m == 2 * hiddenBit then (hiddenBit, e + 1) else (m, e)
    if maxExponent < e then none else some ⟨negative, m, e⟩

def quotient (x : Binary64) : Nat × Nat :=
  if 0 ≤ x.exponent then (x.mantissa * Nat.pow 2 x.exponent.toNat, 1)
  else (x.mantissa, Nat.pow 2 (-x.exponent).toNat)

def mul (x y : Binary64) : Option Binary64 :=
  let (a, b) := x.quotient
  let (c, d) := y.quotient
  ofQuotient (x.negative != y.negative) (a * c) (b * d)

/-- Division by a number other than zero. -/
def div (x y : Binary64) : Option Binary64 :=
  let (a, b) := x.quotient
  let (c, d) := y.quotient
  ofQuotient (x.negative != y.negative) (a * d) (b * c)

/-- The double nearest to an integer that is less than `2 ^ 1023` in magnitude. -/
def ofInt (n : Int) : Binary64 := (ofQuotient (n < 0) n.natAbs 1).getD zero

/-- The double nearest to `10 ^ n`, for `n ≤ 308`. -/
def powTen (n : Nat) : Binary64 := (ofQuotient false (Nat.pow 10 n) 1).getD zero

/-- Divides by `10 ^ n`, at most `10 ^ 308` at a time. -/
def scaleDown (x : Binary64) (n : Nat) : Option Binary64 :=
  if n ≤ 308 then x.div (powTen n)
  else if x.isZero then some x
  else do scaleDown (← x.div (powTen 308)) (n - 308)
termination_by n

/-- The number that the decimal `digits · 10 ^ exponent` is read as: its digits are rounded first,
and the scaling by a rounded power of ten is rounded again. None if it is too great. -/
def ofDecimal (digits : Nat) (exponent : Int) : Option Binary64 :=
  let x := ofInt digits
  if exponent < 0 then x.scaleDown (-exponent).toNat
  else if exponent ≤ 308 then x.mul (powTen exponent.toNat)
  else if x.isZero then some x
  else none

end Binary64
end RpcPeer
