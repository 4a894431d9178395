import OsUnix.ProtectedMode.Handlers
import OsUnix.X86.Program

/-!
# The size of the memory

`compute_memory` of `5-semestr/lab2/main.asm` up to its division, and the memory that it tests.
-/

namespace OsUnix.ProtectedMode
open X86

def selFlatDS : BitVec 16 := 8

/-- The data segments of the GDT when PM_seg lies at `base`, without their access bytes. -/
def dataSegment (base size : Nat) (selector : BitVec 16) : Option Segment :=
  if selector = 8 then some ⟨8, 0, 0xFFFFFFFF⟩
  else if selector = 32 then some ⟨32, base, size - 1⟩
  else if selector = 40 then some ⟨40, base, 0x100 - 1⟩
  else if selector = 48 then some ⟨48, 0xB8000, 0xF0F9F⟩
  else none

section code

variable (gdt : BitVec 16 → Option Segment)

def tested : Operand 8 := memory 8 .ds fun m => m.reg .ebx

def differs (d o : Operand w) : Machine → Option Bool := fun m => do
  let v ← d.get m
  let u ← o.get m
  return v != u

def check : Nat := 6

def endOfMemory : Nat := 12

def computeMemory : List Line :=
  [.plain (push (selector gdt .ds 32)),
    .plain (mov ax (imm selFlatDS)),
    .plain (mov (selector gdt .ds 16) ax),
    .plain (mov ebx (imm 0x100001)),
    .plain (mov dl (imm 0xAA)),
    .plain (mov ecx (imm 0xFFEFFFFE)),
    -- check:
    .plain (mov dh tested),
    .plain (mov tested dl),
    .jump (differs tested dl) endOfMemory,
    .plain (mov tested dh),
    .plain (inc ebx),
    .loop check,
    -- end_of_memory:
    .plain (pop (selector gdt .ds 32)),
    .plain (X86.xor edx edx),
    .plain (mov eax ebx),
    .plain (mov ebx (imm 0x100000)),
    .plain (div ebx)]

end code

/-- The first `size` bytes of the address space are memory; from there on every byte reads as
`floating`, whatever is written. -/
structure Board where
  size : Nat
  floating : BitVec 8
  least : 2 ^ 20 ≤ size
  most : size < 2 ^ 32
  constant : floating = 0 ∨ floating = 0xFF

def Board.settle (board : Board) (m : Machine) : Machine :=
  { m with mem := fun x => if x < board.size then m.mem x else board.floating }

def Working (r : Reg) : Prop := r ≠ .esi ∧ r ≠ .edi ∧ r ≠ .ebp

instance (r : Reg) : Decidable (Working r) := inferInstanceAs (Decidable (_ ∧ _ ∧ _))

/-- `compute_memory` is called, and interrupts may come after each of its instructions. -/
structure Sizing where
  board : Board
  base : Nat
  pmSize : Nat
  conventional : base + 0x100 ≤ 2 ^ 20
  machine : Machine
  data : machine.seg .ds = ⟨32, base, pmSize - 1⟩
  stack : machine.seg .ss = ⟨40, base, 0x100 - 1⟩
  room : 4 ≤ (machine.reg .esp).toNat
  top : (machine.reg .esp).toNat ≤ 0x100
  settled : ∀ x, board.size ≤ x → machine.mem x = board.floating
  -- What interrupts write: the variables of the handlers, the text screen, the stack under ESP.
  written : Nat → Prop
  below : ∀ x, written x → x < 2 ^ 20
  -- What happens between the `n`-th instruction and the next.
  interrupt : Nat → Machine → Machine
  restored : ∀ n m, Undisturbed Working written m (interrupt n m)

namespace Sizing

variable (sizing : Sizing)

def gdt : BitVec 16 → Option Segment := dataSegment sizing.base sizing.pmSize

def around (n : Nat) (m : Machine) : Machine := sizing.interrupt n (sizing.board.settle m)

def run (n k : Nat) (p : Point) : Option Point :=
  execute (computeMemory sizing.gdt) sizing.around n k p

end Sizing

end OsUnix.ProtectedMode
