import Mathlib.Data.List.Perm.Subperm
import Mathlib.Data.List.Range

/-!
# Descriptors

The lowest descriptor from a given one on that is not in use, and what `errno` can hold.
-/

namespace OsUnix.Kernel

/-- An error number: zero stands for no error. -/
abbrev Errno := { code : Nat // code ≠ 0 }

namespace Errno

def erange : Errno := ⟨34, by decide⟩

def econnreset : Errno := ⟨104, by decide⟩

end Errno

def lowestFrom (used : List Nat) : Nat → Nat → Nat
  | 0, fd => fd
  | n + 1, fd => if fd ∈ used then lowestFrom used n (fd + 1) else fd

def lowestUnused (used : List Nat) (fd : Nat) : Nat := lowestFrom used used.length fd

variable {used : List Nat} {n fd g : Nat}

theorem lowestFrom_spec : fd ≤ lowestFrom used n fd ∧
    (∀ g, fd ≤ g → g < lowestFrom used n fd → g ∈ used) ∧
    (lowestFrom used n fd ∈ used → lowestFrom used n fd = fd + n) := by
  induction n generalizing fd with
  | zero =>
      exact ⟨Nat.le_refl _, fun g lower upper => absurd upper (Nat.not_lt.mpr lower), fun _ => rfl⟩
  | succ n ih =>
      rw [lowestFrom]
      split
      · rename_i taken
        obtain ⟨lower, below, last⟩ := @ih (fd + 1)
        refine ⟨by omega, fun g from_fd under => ?_, fun mem => by rw [last mem]; omega⟩
        rcases Nat.lt_or_eq_of_le from_fd with later | rfl
        · exact below g later under
        · exact taken
      · rename_i free
        exact ⟨Nat.le_refl _, fun g lower upper => absurd upper (Nat.not_lt.mpr lower),
          fun mem => absurd mem free⟩

theorem le_lowestUnused : fd ≤ lowestUnused used fd := lowestFrom_spec.1

theorem lowestUnused_not_mem : lowestUnused used fd ∉ used := by
  intro mem
  obtain ⟨-, below, last⟩ := @lowestFrom_spec used used.length fd
  have end_used : fd + used.length ∈ used := by
    rw [← last mem]
    exact mem
  have all_used : List.range' fd (used.length + 1) ⊆ used := by
    intro g inside
    obtain ⟨lower, upper⟩ := List.mem_range'_1.mp inside
    rcases Nat.lt_or_eq_of_le (Nat.le_of_lt_succ upper) with under | rfl
    · exact below g lower (by rw [last mem]; exact under)
    · exact end_used
  have length := (List.Nodup.subperm List.nodup_range' all_used).length_le
  rw [List.length_range'] at length
  omega

theorem lowestUnused_nil : lowestUnused [] fd = fd := rfl

end OsUnix.Kernel
