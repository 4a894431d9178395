import Mathlib.Data.List.TakeWhile
import Mathlib.Data.UInt

/-!
# Texts in C

The string in a buffer ends before the first zero, and `isspace` in the locale "C".
-/

namespace OsUnix.Kernel

def cstring (buffer : List UInt8) : List UInt8 := buffer.takeWhile (· != 0)

def isSpace (b : UInt8) : Bool := b.toNat == 32 || (9 ≤ b.toNat && b.toNat ≤ 13)

variable {buffer text : List UInt8}

theorem zero_not_mem_cstring : 0 ∉ cstring buffer := fun mem => by
  have nonzero := List.all_eq_true.mp List.all_takeWhile 0 mem
  cases nonzero

theorem length_cstring_le (buffer : List UInt8) : (cstring buffer).length ≤ buffer.length :=
  (List.takeWhile_sublist _).length_le

theorem cstring_eq_self (free : 0 ∉ text) : cstring text = text := by
  rw [cstring, List.takeWhile_eq_self_iff]
  exact fun b mem => bne_iff_ne.mpr fun zero => free (zero ▸ mem)

theorem cstring_append (text rest : List UInt8) : cstring (text ++ 0 :: rest) = cstring text := by
  induction text with
  | nil => rfl
  | cons b text ih =>
      by_cases zero : b = 0
      · simp [cstring, zero]
      · have nonzero : (b != 0) = true := by simpa using zero
        simp only [cstring, List.cons_append, List.takeWhile_cons, nonzero, if_true]
        exact congrArg _ ih

end OsUnix.Kernel
