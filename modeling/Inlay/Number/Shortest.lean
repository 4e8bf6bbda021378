import Inlay.Number.Double

/-! The shortest decimal that reads back as a binary64 number. For one digit, two digits and so on
the two neighbours of the number on that decimal grid are tried; the first grid with a neighbour
inside the rounding interval gives the digits. -/

namespace Inlay
namespace Double

/-- `digits * 10 ^ exponent`. -/
structure Decimal where
  digits : Nat
  exponent : Int
deriving DecidableEq, Repr

def compareScaled (c : Nat) (k : Int) (a : Nat) (e : Int) : Ordering :=
  compare (c * Nat.pow 10 k.toNat * Nat.pow 2 (-e).toNat)
    (a * Nat.pow 2 e.toNat * Nat.pow 10 (-k).toNat)

/-- The ends of the interval that rounds to `x`, in quarters of its last place. -/
def lowerQuarter (x : Double) : Nat :=
  if x.mantissa = Nat.pow 2 52 && x.exponent ≠ minExponent then 4 * x.mantissa - 1
  else 4 * x.mantissa - 2

def upperQuarter (x : Double) : Nat := 4 * x.mantissa + 2

/-- Whether `c * 10 ^ k` rounds to the magnitude of `x`. The ends belong to even mantissas. -/
def covers (x : Double) (c : Nat) (k : Int) : Bool :=
  let low := compareScaled c k x.lowerQuarter (x.exponent - 2)
  let high := compareScaled c k x.upperQuarter (x.exponent - 2)
  if x.mantissa % 2 = 0 then low != .lt && high != .gt else low == .gt && high == .lt

def decimalLength (n : Nat) : Nat := (Nat.toDigits 10 n).length

def floorLog10 (n d : Nat) : Int :=
  let k : Int := (decimalLength n : Int) - decimalLength d
  if d * Nat.pow 10 k.toNat ≤ n * Nat.pow 10 (-k).toNat then k else k - 1

/-- Of two neighbours on the grid, the one nearer to `n / d`, and the even one in a tie. -/
def nearer (n d c : Nat) (k : Int) : Nat :=
  match compare (2 * n * Nat.pow 10 (-k).toNat) ((2 * c + 1) * d * Nat.pow 10 k.toNat) with
  | .lt => c
  | .gt => c + 1
  | .eq => c + c % 2

def onGrid? (x : Double) (k : Int) : Option Nat :=
  let c := (x.numerator * Nat.pow 10 (-k).toNat) / (x.denominator * Nat.pow 10 k.toNat)
  match x.covers c k && c != 0, x.covers (c + 1) k with
  | true, true => some (nearer x.numerator x.denominator c k)
  | true, false => some c
  | false, true => some (c + 1)
  | false, false => none

def stripZeros : Nat → Decimal → Decimal
  | 0, d => d
  | n + 1, d =>
    if d.digits % 10 = 0 && d.digits ≠ 0 then stripZeros n ⟨d.digits / 10, d.exponent + 1⟩ else d

def shortest (x : Double) : Decimal :=
  if x.isZero then ⟨0, 0⟩
  else
    let top := floorLog10 x.numerator x.denominator
    let grids := (List.range 17).map fun (n : Nat) => top - n
    match grids.findSome? fun k => (x.onGrid? k).map (Decimal.mk · k) with
    | some d => stripZeros 18 d
    | none => ⟨0, 0⟩

end Double
end Inlay
