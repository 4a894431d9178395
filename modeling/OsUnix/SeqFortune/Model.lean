import OsUnix.Kernel.Component
import OsUnix.Kernel.Integer
import OsUnix.Kernel.Memory

/-!
# The fortune file as a seq_file

`my_write` and `my_show` of `6-semestr/lab4/part2/main.c`. What they print to the log is left out.
-/

namespace OsUnix.SeqFortune
open Kernel

def cookiePotSize : Nat := 4096

def efault : Int := 14

structure Pot where
  str : Memory
  writeIndex : Int
  readIndex : Int

def Pot.fresh (outside : Memory) : Pot where
  str i := if 0 ≤ i ∧ i < cookiePotSize then 0 else outside i
  writeIndex := 0
  readIndex := 0

structure Write where
  pot : Pot
  ret : Int
  stores : Accesses

/-- `buffer` is what can be read at the user's address. Nothing compares `count` with the room that
is left. -/
def myWrite (pot : Pot) (buffer : List UInt8) (count : Nat) : Write :=
  let copy := copyFromUser pot.writeIndex buffer count
  let copied := { pot with str := pot.str.store copy.accesses }
  if copy.left ≠ 0 then ⟨copied, -efault, copy.accesses⟩
  else
    let writeIndex := toUnsigned (toSize (pot.writeIndex + count))
    let last := toUnsigned (writeIndex - 1)
    ⟨{ copied with str := copied.str.store [(last, 0)], writeIndex }, toSsize count,
      copy.accesses ++ [(last, 0)]⟩

def printed (index : Int) (message : List UInt8) : List UInt8 :=
  "Index is ".toUTF8.toList ++ (toString index).toUTF8.toList ++
    ", message is ".toUTF8.toList ++ message ++ "\n".toUTF8.toList

/-- `scanned` are the bytes of `str` that `seq_printf` and `strlen` read. -/
structure Show where
  pot : Pot
  message : List UInt8
  output : List UInt8
  scanned : Accesses

def myShow (pot : Pot) : Option Show :=
  (pot.str.strlen pot.readIndex).map fun (n : Nat) =>
    let message := pot.str.slice pot.readIndex n
    let len := toInt n
    ⟨if len ≠ 0 then { pot with readIndex := toUnsigned (pot.readIndex + (len + 1)) } else pot,
      message, printed pot.readIndex message, pot.str.load pot.readIndex (n + 1)⟩

inductive Op
  | write (buffer : List UInt8) (count : Nat)
  | show
deriving DecidableEq, Repr

inductive Answer
  | wrote (write : Write)
  | showed (shown : Show)

def component (outside : Memory) : Component Pot Op Answer where
  start := .fresh outside
  step pot
    | .write buffer count =>
        let write := myWrite pot buffer count
        some (write.pot, .wrote write)
    | .show => (myShow pot).map fun shown => (shown.pot, .showed shown)

end OsUnix.SeqFortune
