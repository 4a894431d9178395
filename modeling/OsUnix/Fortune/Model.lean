import OsUnix.Kernel.Component
import OsUnix.Kernel.Integer
import OsUnix.Kernel.Memory

/-!
# The fortune pot

`fortune_write` and `fortune_read` of `6-semestr/lab4/part2/fortune.c`, one call after the other.
What the two print to the log is left out.
-/

namespace OsUnix.Fortune
open Kernel

def maxCookieLength : Nat := 4096

def enomem : Int := 12

def efault : Int := 14

def enospc : Int := 28

structure Pot where
  cookiePot : Memory
  cookieIndex : Int
  nextFortune : Int

def Pot.fresh (outside : Memory) : Pot where
  cookiePot i := if 0 ≤ i ∧ i < maxCookieLength then 0 else outside i
  cookieIndex := 0
  nextFortune := 0

structure Write where
  pot : Pot
  ret : Int
  stores : Accesses

def spaceAvailable (cookieIndex : Int) : Int :=
  toInt (toSize (toSize (maxCookieLength - toSize cookieIndex) + 1))

/-- The comparison of `len` with `space_available` is one of `size_t`. -/
def full (cookieIndex : Int) (len : Nat) : Bool :=
  toSize (spaceAvailable cookieIndex) < len

def Pot.copy (pot : Pot) (buf : List UInt8) (len : Nat) : Pot :=
  { pot with
    cookiePot := pot.cookiePot.store (copyFromUser pot.cookieIndex buf len).accesses }

def Pot.add (pot : Pot) (len : Nat) : Pot :=
  { pot with cookieIndex := toInt (toSize pot.cookieIndex + len) }

def Pot.terminate (pot : Pot) : Pot :=
  { pot with cookiePot := pot.cookiePot.store [(pot.cookieIndex - 1, 0)] }

section
variable (pot : Pot) (buf : List UInt8) (len : Nat)

@[simp] theorem copy_cookieIndex : (pot.copy buf len).cookieIndex = pot.cookieIndex := rfl

@[simp] theorem add_cookiePot : (pot.add len).cookiePot = pot.cookiePot := rfl

@[simp] theorem terminate_cookieIndex : pot.terminate.cookieIndex = pot.cookieIndex := rfl

@[simp] theorem terminate_cookiePot_self : pot.terminate.cookiePot (pot.cookieIndex - 1) = 0 :=
  Function.update_self ..

theorem terminate_cookiePot {i : Int} (other : i ≠ pot.cookieIndex - 1) :
    pot.terminate.cookiePot i = pot.cookiePot i :=
  Function.update_of_ne other ..

end

/-- `buf` is what can be read at the user's address. -/
def fortuneWrite (pot : Pot) (buf : List UInt8) (len : Nat) : Write :=
  if full pot.cookieIndex len then ⟨pot, -enospc, []⟩
  else
    let copy := copyFromUser pot.cookieIndex buf len
    let copied := pot.copy buf len
    if copy.left ≠ 0 then ⟨copied, -efault, copy.accesses⟩
    else
      let added := copied.add len
      ⟨added.terminate, toSsize len, copy.accesses ++ [(added.cookieIndex - 1, 0)]⟩

structure Read where
  pot : Pot
  ret : Int
  ppos : Int
  copy : Copy

def Pot.start (pot : Pot) : Int :=
  if pot.nextFortune ≥ pot.cookieIndex then 0 else pot.nextFortune

/-- `room` is what can be written at the user's address. -/
def fortuneRead (pot : Pot) (ppos : Int) (len room : Nat) : Option Read :=
  if 0 < ppos then some ⟨pot, 0, ppos, ⟨[], 0⟩⟩
  else
    (pot.cookiePot.strlen pot.start).map fun (n : Nat) =>
      let l := toInt (toSize (n + 1))
      let l := if toSize l > len then toInt len else l
      let copy := copyToUser pot.cookiePot pot.start (toSize l).toNat room
      let l := if copy.left ≠ 0 then 0 else l
      ⟨{ pot with nextFortune := toInt (pot.start + l) }, toSsize len, 1, copy⟩

inductive Op
  | write (buf : List UInt8) (len : Nat)
  | read (ppos : Int) (len room : Nat)
deriving DecidableEq, Repr

inductive Answer
  | wrote (write : Write)
  | gave (read : Read)

def component (outside : Memory) : Component Pot Op Answer where
  start := .fresh outside
  step pot
    | .write buf len =>
        let write := fortuneWrite pot buf len
        some (write.pot, .wrote write)
    | .read ppos len room =>
        (fortuneRead pot ppos len room).map fun read => (read.pot, .gave read)

inductive Reply
  | wrote (ret : Int)
  | gave (ret ppos : Int) (bytes : List UInt8)
deriving DecidableEq, Repr

def Answer.reply : Answer → Reply
  | .wrote write => .wrote write.ret
  | .gave read => .gave read.ret read.ppos read.copy.accesses.bytes

end OsUnix.Fortune
