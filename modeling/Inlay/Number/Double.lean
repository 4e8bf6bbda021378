/-! Finite binary64 numbers as a sign, a mantissa and a binary exponent. Every operation computes
the exact quotient of two naturals and rounds it once, to nearest with ties to even. -/

namespace Inlay

/-- `± mantissa * 2 ^ exponent`. -/
structure Double where
  negative : Bool
  mantissa : Nat
  exponent : Int
deriving DecidableEq, Repr

namespace Double

def minExponent : Int := -1074

def maxExponent : Int := 971

def zero : Double := ⟨false, 0, minExponent⟩

def neg (x : Double) : Double := { x with negative := !x.negative }

def isZero (x : Double) : Bool := x.mantissa == 0

/-- The nearest natural to `n / d`, a tie going to the even one. -/
def roundDiv (n d : Nat) : Nat :=
  if 2 * (n % d) < d then n / d
  else if d < 2 * (n % d) then n / d + 1
  else n / d + (n / d) % 2

def shiftedNum (n : Nat) (e : Int) : Nat := n * Nat.pow 2 e.toNat

def shiftedDen (d : Nat) (e : Int) : Nat := d * Nat.pow 2 (-e).toNat

/-- The exponent of the highest power of two not above `n / d`, for positive `n` and `d`. -/
def floorLog2 (n d : Nat) : Int :=
  let k : Int := (n.log2 : Int) - d.log2
  if shiftedNum d k ≤ shiftedDen n k then k else k - 1

/-- The number nearest to `n / d`, unless that is past the largest one. -/
def ofQuotient? (n d : Nat) : Option Double :=
  if n = 0 then some zero
  else
    let q := max (floorLog2 n d - 52) minExponent
    let m := roundDiv (shiftedDen n q) (shiftedNum d q)
    let (m, q) := if m = Nat.pow 2 53 then (Nat.pow 2 52, q + 1) else (m, q)
    if maxExponent < q then none else some ⟨false, m, q⟩

def ofNat? (n : Nat) : Option Double := ofQuotient? n 1

def numerator (x : Double) : Nat := shiftedNum x.mantissa x.exponent

def denominator (x : Double) : Nat := shiftedDen 1 x.exponent

def mul? (x y : Double) : Option Double :=
  (ofQuotient? (x.numerator * y.numerator) (x.denominator * y.denominator)).map fun z =>
    { z with negative := x.negative != y.negative }

def div? (x y : Double) : Option Double :=
  (ofQuotient? (x.numerator * y.denominator) (x.denominator * y.numerator)).map fun z =>
    { z with negative := x.negative != y.negative }

def maxPower : Nat := 308

def powerOfTen? (k : Nat) : Option Double := ofNat? (Nat.pow 10 k)

/-- Divides by `p` up to `n` times, stopping at zero. -/
def divRepeatedly? (p : Double) : Nat → Double → Option Double
  | 0, x => some x
  | n + 1, x => if x.isZero then some x else do divRepeatedly? p n (← x.div? p)

/-- `x * 10 ^ (-k)`, dividing by the largest power of ten as often as it is exceeded. -/
def divPowerOfTen? (x : Double) (k : Nat) : Option Double := do
  let times := (k - 1) / maxPower
  let y ← divRepeatedly? (← powerOfTen? maxPower) times x
  y.div? (← powerOfTen? (k - times * maxPower))

/-- The number written with these significant digits and decimal exponent. The digits are rounded
before the power of ten is applied. Nothing when it is too large. -/
def ofDecimal? (digits : Nat) (e : Int) : Option Double := do
  let x ← ofNat? digits
  if e < 0 then x.divPowerOfTen? e.natAbs
  else if e.toNat ≤ maxPower then x.mul? (← powerOfTen? e.toNat)
  else if x.isZero then some x
  else none

end Double
end Inlay
