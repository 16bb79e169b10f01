import RpcPeer.Json.Binary64

/-!
Decimal text of a double: the fewest digits that read back as the same number, of these the
nearest, in a layout that one record fixes.
-/
namespace RpcPeer

/-- Where positional notation ends and how an exponent is written. -/
structure DecimalLayout where
  /-- The decimal exponents that are written positionally. -/
  least : Int
  greatest : Int
  /-- Stands before an exponent that is not negative. -/
  plus : String

/-- Numbers from `0.00001` to below `10 ^ 16` are positional; other exponents carry their sign. -/
def DecimalLayout.json : DecimalLayout := ⟨-5, 15, "+"⟩

namespace Binary64

/-- Compares `a · 10 ^ p` with `num / den`. -/
def compareScaled (a : Nat) (p : Int) (num den : Nat) : Ordering :=
  if 0 ≤ p then compare (a * Nat.pow 10 p.toNat * den) num
  else compare (a * den) (num * Nat.pow 10 (-p).toNat)

/-- The decimal exponent of a number other than zero: `10 ^ k ≤ num / den < 10 ^ (k + 1)`. -/
def log10Quotient (num den : Nat) : Int :=
  let k := log2Quotient num den * 30103 / 100000
  if compareScaled 1 (k + 1) num den != .gt then k + 1
  else if compareScaled 1 k num den == .gt then k - 1
  else k

/-- The ends of the interval that rounds to `x`, in quarters of its unit. -/
def quarterBounds (x : Binary64) : Nat × Nat :=
  let below := if x.mantissa == hiddenBit && minExponent < x.exponent then 1 else 2
  (4 * x.mantissa - below, 4 * x.mantissa + 2)

/-- Does `a · 10 ^ p` read back as `x`? An even mantissa owns the ends of its interval. -/
def readsBack (x : Binary64) (a : Nat) (p : Int) : Bool :=
  let (low, high) := x.quarterBounds
  let unit : Binary64 := ⟨false, 1, x.exponent - 2⟩
  let (num, den) := unit.quotient
  let atLow := compareScaled a p (low * num) den
  let atHigh := compareScaled a p (high * num) den
  if x.mantissa % 2 == 0 then atLow != .lt && atHigh != .gt else atLow == .gt && atHigh == .lt

/-- The two points around `num / den` on the grid of multiples of `10 ^ p`. -/
def gridBelow (num den : Nat) (p : Int) : Nat :=
  if 0 ≤ p then num / (den * Nat.pow 10 p.toNat) else num * Nat.pow 10 (-p).toNat / den

/-- Which of the grid points `a` and `a + 1` is nearer: `.lt` for the first. -/
def nearerOf (num den a : Nat) (p : Int) : Ordering :=
  if 0 ≤ p then compare (2 * num) ((2 * a + 1) * den * Nat.pow 10 p.toNat)
  else compare (2 * num * Nat.pow 10 (-p).toNat) ((2 * a + 1) * den)

/-- The grid point to print, if one reads back. -/
def onGrid? (x : Binary64) (p : Int) : Option Nat :=
  let (num, den) := x.quotient
  let a := gridBelow num den p
  let lower := x.readsBack a p
  let upper := x.readsBack (a + 1) p
  if lower && upper then
    some (match nearerOf num den a p with
      | .lt => a
      | .gt => a + 1
      | .eq => if a % 2 == 0 then a else a + 1)
  else if lower then some a
  else if upper then some (a + 1)
  else none

/-- Tries grids of `count`, `count + 1`, … digits. -/
def shortestFrom (x : Binary64) (k : Int) (count : Nat) : Nat → Nat × Int
  | 0 => (gridBelow x.quotient.1 x.quotient.2 (k + 1 - count), k + 1 - count)
  | more + 1 =>
    let p := k + 1 - count
    match x.onGrid? p with
    | some a => (a, p)
    | none => shortestFrom x k (count + 1) more

/-- Digits and decimal exponent of a number other than zero. -/
def shortest (x : Binary64) : List Char × Int :=
  let (num, den) := x.quotient
  let (a, p) := shortestFrom x (log10Quotient num den) 1 17
  let digits := Nat.toDigits 10 a
  let kept := (digits.reverse.dropWhile (· == '0')).reverse
  (kept, p + digits.length - 1)

def zeros (n : Nat) : List Char := List.replicate n '0'

/-- A positional numeral with at least one digit on either side of the point. -/
def positional (digits : List Char) (k : Int) : List Char :=
  if k < 0 then '0' :: '.' :: (zeros (-k - 1).toNat ++ digits)
  else
    let whole := k.toNat + 1
    if digits.length ≤ whole then digits ++ zeros (whole - digits.length) ++ ['.', '0']
    else digits.take whole ++ '.' :: digits.drop whole

def scientific (layout : DecimalLayout) (digits : List Char) (k : Int) : List Char :=
  let mantissa :=
    match digits with
    | d :: e :: rest => d :: '.' :: e :: rest
    | ds => ds
  let exponent := if k < 0 then '-' :: Nat.toDigits 10 k.natAbs
    else layout.plus.toList ++ Nat.toDigits 10 k.natAbs
  mantissa ++ 'e' :: exponent

def render (layout : DecimalLayout) (x : Binary64) : List Char :=
  let body :=
    if x.isZero then ['0', '.', '0']
    else
      let (digits, k) := x.shortest
      if layout.least ≤ k && k ≤ layout.greatest then positional digits k
      else scientific layout digits k
  if x.negative then '-' :: body else body

end Binary64
end RpcPeer
