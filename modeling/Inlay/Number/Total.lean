/-! The sum of a list of numbers. -/

namespace Inlay

def total (ns : List Nat) : Nat := ns.foldr Nat.add 0

@[simp] theorem total_nil : total [] = 0 := rfl

@[simp] theorem total_cons (n : Nat) (ns : List Nat) : total (n :: ns) = n + total ns := rfl

@[simp] theorem total_append (ms ns : List Nat) : total (ms ++ ns) = total ms + total ns := by
  induction ms with
  | nil => simp
  | cons n ms ih => rw [List.cons_append, total_cons, total_cons, ih, Nat.add_assoc]

end Inlay
