import Mathlib.Dynamics.PeriodicPts.Defs

/-!
# Ring lists

A loop that follows the links of a list until it is back where it began.
-/

namespace OsUnix.Kernel
open Function

variable {α : Type*} {next : α → α} {first x : α} {n : Nat} {visited : List α}

/-- The elements that `do … while ((x = next(x)) != first)` visits, if it ends in `n` turns. -/
def around [DecidableEq α] (next : α → α) (first : α) : Nat → α → Option (List α)
  | 0, _ => none
  | n + 1, x =>
      if next x = first then some [x] else (around next first n (next x)).map (x :: ·)

noncomputable def ring (next : α → α) (first : α) : List α :=
  (List.range (minimalPeriod next first)).map fun k => next^[k] first

variable [DecidableEq α]

end OsUnix.Kernel
