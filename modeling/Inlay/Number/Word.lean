/-! Lines, columns and indents are words of 32 bits, offsets and widths words of 64. Sums and
products that leave their word are an error of the whole computation; differences stop at zero. -/

namespace Inlay

/-- The operation whose result does not fit its word. -/
inductive Overflow where
  | add
  | multiply
deriving DecidableEq, Repr

def Overflow.message : Overflow → String
  | .add => "attempt to add with overflow"
  | .multiply => "attempt to multiply with overflow"

namespace Word

def bound32 : Nat := 4294967296

def bound64 : Nat := 18446744073709551616

def add32 (a b : Nat) : Except Overflow Nat :=
  if a + b < bound32 then .ok (a + b) else .error .add

def mul64 (a b : Nat) : Except Overflow Nat :=
  if a * b < bound64 then .ok (a * b) else .error .multiply

def low32 (n : Nat) : Nat := n % bound32

/-- The nearest word of 64 bits. -/
def clamp64 (i : Int) : Nat := min i.toNat (bound64 - 1)

theorem add32_eq_ok {a b n : Nat} : add32 a b = .ok n ↔ a + b < bound32 ∧ n = a + b := by
  unfold add32
  split
  · simp_all [eq_comm]
  · simp; omega

theorem add32_eq_error {a b : Nat} {o : Overflow} :
    add32 a b = .error o ↔ bound32 ≤ a + b ∧ o = .add := by
  unfold add32
  split
  · simp; omega
  · simp_all [eq_comm]

theorem mul64_eq_error {a b : Nat} {o : Overflow} :
    mul64 a b = .error o ↔ bound64 ≤ a * b ∧ o = .multiply := by
  unfold mul64
  split
  · simp; omega
  · simp_all [eq_comm]

end Word
end Inlay
