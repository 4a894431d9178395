import Mathlib.Algebra.Order.Ring.Int

/-!
# C integers

What a conversion to `int`, `unsigned int`, `size_t` or `ssize_t` makes of a value, on a 64-bit
machine.
-/

namespace OsUnix.Kernel

def toInt (x : Int) : Int := (x + 2 ^ 31) % 2 ^ 32 - 2 ^ 31

def toUnsigned (x : Int) : Int := x % 2 ^ 32

def toSize (x : Int) : Int := x % 2 ^ 64

def toSsize (x : Int) : Int := (x + 2 ^ 63) % 2 ^ 64 - 2 ^ 63

variable {x : Int}

theorem toInt_eq (lower : -2 ^ 31 ≤ x) (upper : x < 2 ^ 31) : toInt x = x := by
  unfold toInt
  omega

theorem toUnsigned_eq (lower : 0 ≤ x) (upper : x < 2 ^ 32) : toUnsigned x = x :=
  Int.emod_eq_of_lt lower upper

theorem toSize_eq (lower : 0 ≤ x) (upper : x < 2 ^ 64) : toSize x = x :=
  Int.emod_eq_of_lt lower upper

theorem toSsize_eq (lower : -2 ^ 63 ≤ x) (upper : x < 2 ^ 63) : toSsize x = x := by
  unfold toSsize
  omega

theorem toInt_add (x y : Int) : toInt (toSize (toInt x) + y) = toInt (x + y) := by
  unfold toInt toSize
  omega

end OsUnix.Kernel
