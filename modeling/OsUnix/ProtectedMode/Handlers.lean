import OsUnix.X86.Machine

/-!
# The handlers

`new_int08` and `new_int09` of `5-semestr/lab2/main.asm` with their macros. The segment register
that the variables are addressed through is a parameter.
-/

namespace OsUnix.ProtectedMode
open X86

-- Offsets in PM_seg. Before `escape` lie the GDT of 7 descriptors, `gdtr`, the IDT of 34
-- descriptors, `idtr`, `idtr_real` and the two saved interrupt masks.
def escape : BitVec 32 := 7 * 8 + 6 + 34 * 8 + 6 + 6 + 2

def time08 : BitVec 32 := escape + 1

-- behind the three messages
def asciiTable : BitVec 32 := time08 + 4 + 61 + 20 + 27

def outPosition : BitVec 32 := asciiTable + 54

section operands

def eax : Operand 32 := r32 .eax
def ebx : Operand 32 := r32 .ebx
def ecx : Operand 32 := r32 .ecx
def edx : Operand 32 := r32 .edx
def edi : Operand 32 := r32 .edi
def ebp : Operand 32 := r32 .ebp
def ax : Operand 16 := r16 .eax
def bp : Operand 16 := r16 .ebp
def dx : Operand 16 := r16 .edx
def al : Operand 8 := low8 .eax
def ah : Operand 8 := high8 .eax
def dl : Operand 8 := low8 .edx
def dh : Operand 8 := high8 .edx

end operands

/-- `jl` compares as signed numbers. -/
def dlLess (bound : BitVec 8) : Machine → Bool := fun m =>
  ((m.reg .edx).extractLsb' 0 8).slt bound

def alIs (code : BitVec 8) : Machine → Bool := fun m =>
  (m.reg .eax).extractLsb' 0 8 == code

def alAbove (code : BitVec 8) : Machine → Bool := fun m =>
  code.ult ((m.reg .eax).extractLsb' 0 8)

def createNumber : List Instr :=
  [branch (dlLess 10) [] [add dl (imm (65 - 48 - 10))],
    add dl (imm 48),
    mov dh (imm 0x46)]

def prcyc1 : List Instr :=
  [mov dl al, and dl (imm 0x0F)] ++
  createNumber ++
  [mov (memory 16 .es fun m => m.reg .edi) dx,
    ror eax 4,
    sub edi (imm 2)]

def myPrintEax : List Instr :=
  [push ecx,
    push dx,
    mov ecx (imm 8),
    add edi (imm 172),
    loop prcyc1,
    pop dx,
    pop ecx]

section handlers

-- The register that the variables of PM_seg are reached through.
variable (data : SegReg)

def variable8 (offset : BitVec 32) : Operand 8 := memory 8 data fun _ => offset

def variable32 (offset : BitVec 32) : Operand 32 := memory 32 data fun _ => offset

def newInt08 : List Instr :=
  [push eax,
    push ebp,
    push ecx,
    push dx,
    mov eax (variable32 data time08),
    mov edi (imm 2)] ++
  myPrintEax ++
  [inc eax,
    mov (variable32 data time08) eax,
    pop dx,
    pop ecx,
    pop ebp,
    mov al (imm 0x20),
    output 0x20 al,
    pop eax]

def printKey : List Instr :=
  [xor ah ah,
    mov bp ax,
    mov dl (memory 8 data fun m => asciiTable + m.reg .ebp),
    mov ebx (variable32 data outPosition),
    mov (memory 8 .es fun m => m.reg .ebx) dl,
    add ebx (imm 2),
    mov (variable32 data outPosition) ebx]

def newInt09 : List Instr :=
  [push eax,
    push ebx,
    push ebp,
    push edx,
    input al 0x60,
    branch (alIs 0x1C)
      [mov (variable8 data escape) (imm 1)]
      [branch (alAbove 0x80) [] (printKey data)],
    input al 0x61,
    or al (imm 0x80),
    output 0x61 al,
    mov al (imm 0x20),
    output 0x20 al,
    pop edx,
    pop ebp,
    pop ebx,
    pop eax]

inductive Handler
  | newInt08 | newInt09
  deriving DecidableEq, Repr

def Handler.code : Handler → List Instr
  | .newInt08 => ProtectedMode.newInt08 data
  | .newInt09 => ProtectedMode.newInt09 data

end handlers

structure Interrupted where
  machine : Machine
  -- PM_seg lies in conventional memory above the BIOS data, with `PM_seg_size` bytes.
  base : Nat
  size : Nat
  data : SegReg
  low : 0x500 ≤ base
  high : base + size ≤ 0xA0000
  defined : outPosition.toNat + 4 ≤ size
  -- The descriptor of the stack has the base of PM_seg and `stack_l - 1` as its limit.
  stack : machine.seg .ss = ⟨40, base, 0x100 - 1⟩
  video : machine.seg .es = ⟨48, 0xB8000, 0xF0F9F⟩
  -- The flat segment is in DS while the memory is counted.
  placed : ((machine.seg data).base = base ∧ (machine.seg data).limit = size - 1) ∨
    ((machine.seg data).base = 0 ∧ (machine.seg data).limit = 0xFFFFFFFF)
  room : 20 ≤ (machine.reg .esp).toNat
  top : (machine.reg .esp).toNat ≤ 0x100

end OsUnix.ProtectedMode
