import OsUnix.ProtectedMode.Handlers
import OsUnix.X86.RealMode

/-!
# The tables and the segments

`start` of `5-semestr/lab2/main.asm` while it puts the addresses of the segments into the tables.
-/

namespace OsUnix.ProtectedMode
open X86

-- The tables at the beginning of PM_seg.
def gdt : BitVec 32 := 0

def gdtSize : Nat := 7 * 8

def gdtr : BitVec 32 := gdt + 7 * 8

def idt : BitVec 32 := gdtr + 6

def idtSize : Nat := 34 * 8

def idtr : BitVec 32 := idt + 34 * 8

def sel16bitCS : BitVec 32 := 16

def sel32bitCS : BitVec 32 := 24

def sel32bitDS : BitVec 32 := 32

def sel32bitSS : BitVec 32 := 40

def baseL (selector : BitVec 32) : BitVec 32 := gdt + selector + 2

def baseM (selector : BitVec 32) : BitVec 32 := gdt + selector + 4

def stackL : Nat := 0x100

/-- What the loader has put into the code for the names of the segments. -/
structure Segments where
  pm : BitVec 16
  rm : BitVec 16
  stack : BitVec 16
  deriving DecidableEq, Repr

section code

variable (segments : Segments)

def pmVariable (w : Nat) (offset : BitVec 32) : Operand w := memory w .ds fun _ => offset

def setDS : List Instr := [push16 (imm segments.pm), pop16 (selector16 .ds)]

def set16bitCS : List Instr :=
  [xor eax eax,
    mov ax (imm segments.rm),
    shl eax 4,
    mov (pmVariable 16 (baseL sel16bitCS)) ax,
    shr eax 16,
    mov (pmVariable 8 (baseM sel16bitCS)) al]

def set32bit : List Instr :=
  [mov ax (imm segments.pm),
    shl eax 4,
    push16 eax,
    push16 eax,
    mov (pmVariable 16 (baseL sel32bitCS)) ax,
    mov (pmVariable 16 (baseL sel32bitSS)) ax,
    mov (pmVariable 16 (baseL sel32bitDS)) ax,
    shr eax 16,
    mov (pmVariable 8 (baseM sel32bitCS)) al,
    mov (pmVariable 8 (baseM sel32bitSS)) al,
    mov (pmVariable 8 (baseM sel32bitDS)) al]

def setGdtr : List Instr :=
  [pop16 eax,
    add eax (imm gdt),
    mov (pmVariable 32 (gdtr + 2)) eax,
    mov (pmVariable 16 gdtr) (imm (BitVec.ofNat 16 gdtSize - 1)),
    lgdt (pmVariable 48 gdtr)]

def setIdtr : List Instr :=
  [pop16 eax,
    add eax (imm idt),
    mov (pmVariable 32 (idtr + 2)) eax,
    mov (pmVariable 16 idtr) (imm (BitVec.ofNat 16 idtSize - 1))]

def setUp : List Instr :=
  setDS segments ++ set16bitCS segments ++ set32bit segments ++ setGdtr ++ setIdtr

end code

/-- The program when the set-up begins: SS and SP are the loader's. -/
structure Loaded extends Segments where
  machine : Machine
  data : BitVec 16
  ds : machine.seg .ds = paragraph data
  ss : machine.seg .ss = paragraph stack
  sp : machine.sp = BitVec.ofNat 16 stackL

def Segments.linear (segments : Segments) (offset : BitVec 32) : Nat :=
  16 * segments.pm.toNat + offset.toNat

def Segments.base (segments : Segments) (mem : Nat → BitVec 8) (selector : BitVec 32) : Nat :=
  (word mem 8 (segments.linear (baseM selector)) ++
    word mem 16 (segments.linear (baseL selector))).toNat

def Apart (a n b n' : Nat) : Prop := a + n ≤ b ∨ b + n' ≤ a

instance (a n b n' : Nat) : Decidable (Apart a n b n') := inferInstanceAs (Decidable (_ ∨ _))

structure Segments.Relocated (segments : Segments) (mem : Nat → BitVec 8) : Prop where
  code16 : segments.base mem sel16bitCS = 16 * segments.rm.toNat
  code32 : segments.base mem sel32bitCS = 16 * segments.pm.toNat
  data32 : segments.base mem sel32bitDS = 16 * segments.pm.toNat
  stack32 : segments.base mem sel32bitSS = 16 * segments.stack.toNat
  gdtr : (word mem 32 (segments.linear (gdtr + 2))).toNat = segments.linear gdt
  idtr : (word mem 32 (segments.linear (idtr + 2))).toNat = segments.linear idt
  besideGdt : Apart (segments.base mem sel32bitSS) stackL (segments.linear gdt) gdtSize
  besideIdt : Apart (segments.base mem sel32bitSS) stackL (segments.linear idt) idtSize

end OsUnix.ProtectedMode
