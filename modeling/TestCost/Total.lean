/-!
# Totals

Sums of counts: costs of methods, slots of parameters, edges of blocks.
-/

namespace TestCost

/-- The sum of counts. -/
def total (counts : List Nat) : Nat := counts.foldr (fun n rest => n + rest) 0

@[simp] theorem total_nil : total [] = 0 := rfl

@[simp] theorem total_cons (n : Nat) (counts : List Nat) :
    total (n :: counts) = n + total counts :=
  rfl

@[simp] theorem total_append (counts more : List Nat) :
    total (counts ++ more) = total counts + total more := by
  induction counts with
  | nil => simp
  | cons n counts ih => simp [ih, Nat.add_assoc]

end TestCost
