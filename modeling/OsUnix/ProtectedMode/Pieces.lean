import OsUnix.ProtectedMode.Transparency
import OsUnix.X86.Touches

/-!
# The handlers in pieces

What each piece of `new_int08` and of `new_int09` writes.
-/

namespace OsUnix.ProtectedMode
open X86

def pushTimer : List Instr := [push eax, push ebp, push ecx, push dx]

def popTimer : List Instr :=
  [pop dx, pop ecx, pop ebp, mov al (imm 0x20), output 0x20 al, pop eax]

theorem newInt08_eq (data : SegReg) : newInt08 data = pushTimer ++
    ([mov eax (variable32 data time08), mov edi (imm 2)] ++ (myPrintEax ++
      ([inc eax, mov (variable32 data time08) eax] ++ popTimer))) := rfl

def readKey : List Instr := [push eax, push ebx, push ebp, push edx, input al 0x60]

def indexKey : List Instr := [X86.xor ah ah, mov bp ax]

section code

variable (data : SegReg)

def fetchKey : List Instr :=
  [mov dl (memory 8 data fun m => asciiTable + m.reg .ebp),
    mov ebx (variable32 data outPosition)]

def drawKey : List Instr :=
  [mov (memory 8 .es fun m => m.reg .ebx) dl,
    X86.add ebx (imm 2),
    mov (variable32 data outPosition) ebx]

def testKey : Instr :=
  branch (alIs 0x1C)
    [mov (variable8 data escape) (imm 1)]
    [branch (alAbove 0x80) [] (indexKey ++ (fetchKey data ++ drawKey data))]

def acknowledge : List Instr :=
  [input al 0x61,
    X86.or al (imm 0x80),
    output 0x61 al,
    mov al (imm 0x20),
    output 0x20 al,
    pop edx,
    pop ebp,
    pop ebx,
    pop eax]

theorem newInt09_eq : newInt09 data = readKey ++ ([testKey data] ++ acknowledge) := rfl

end code

section writes

variable (start : Interrupted)

/-- The handler reaches the variables of PM_seg through a segment that has its base. -/
def Interrupted.Reaches (start : Interrupted) : Prop :=
  (start.machine.seg start.data).base = start.base

theorem stack_end : (start.seg .ss).base + (start.seg .ss).limit = start.base + 0xFF := by
  rw [Interrupted.seg, start.stack]

theorem video_base : start.base + outPosition.toNat + 4 ≤ (start.seg .es).base := by
  have high := start.high
  have defined := start.defined
  rw [Interrupted.seg, start.video]
  exact Nat.le_trans (by omega) (Nat.le_trans high (by decide))

def Interrupted.Writes (x : Nat) : Prop :=
  (start.seg .ss).Holds x ∨ (start.seg .es).Holds x ∨
    x = start.base + escape.toNat ∨
    start.base + outPosition.toNat ≤ x ∧ x < start.base + outPosition.toNat + 4

theorem touches_push (o : Operand w) : Touches start.seg (start.seg .ss).Holds (push o) :=
  Touches.push o fun _ inside => inside

theorem touches_pushTimer : Touches start.seg (start.seg .ss).Holds (run pushTimer) :=
  (touches_push start _).cons ((touches_push start _).cons ((touches_push start _).cons
    (touches_push start _).single))

theorem touches_popTimer : Touches seg (fun _ => False) (run popTimer) := by
  have command : Touches seg (fun _ => False) (mov al (imm 0x20)) := Touches.mov writes_al _
  exact (Touches.pop saves_dx.writes).cons ((Touches.pop saves_ecx.writes).cons
    ((Touches.pop saves_ebp.writes).cons (command.cons ((Touches.output 0x20 al).cons
      (Touches.pop saves_eax.writes).single))))

theorem touches_readKey : Touches start.seg (start.seg .ss).Holds (run readKey) :=
  (touches_push start _).cons ((touches_push start _).cons ((touches_push start _).cons
    ((touches_push start _).cons (Touches.input writes_al _).single)))

theorem touches_lookup (data : SegReg) :
    Touches seg (fun _ => False) (run (indexKey ++ fetchKey data)) := by
  have clear : Touches seg (fun _ => False) (X86.xor ah ah) := Touches.update writes_ah _ _
  have index : Touches seg (fun _ => False) (mov bp ax) := Touches.mov writes_bp _
  exact (clear.cons index.single).append
    ((Touches.mov writes_dl _).cons (Touches.mov saves_ebx.writes _).single)

theorem touches_drawKey (reaches : start.Reaches) :
    Touches start.seg start.Writes (run (drawKey start.data)) := by
  have video : Touches start.seg start.Writes (mov (memory 8 .es fun m => m.reg .ebx) dl) := by
    apply Touches.store 8
    intro m fits x low high
    exact Or.inr (Or.inl ⟨by omega, by omega⟩)
  have keep : Touches start.seg start.Writes (mov (variable32 start.data outPosition) ebx) := by
    apply Touches.store 32
    intro m _ x low high
    rw [reaches] at low high
    exact Or.inr (Or.inr (Or.inr ⟨low, high⟩))
  have next : Touches start.seg start.Writes (X86.add ebx (imm 2)) :=
    Touches.update saves_ebx.writes _ _
  exact video.cons (next.cons keep.single)

theorem touches_leave (reaches : start.Reaches) :
    Touches start.seg (· = start.base + escape.toNat)
      (mov (variable8 start.data escape) (imm 1)) := by
  apply Touches.store 8
  intro m _ x low high
  rw [reaches] at low high
  omega

theorem touches_testKey (reaches : start.Reaches) :
    Touches start.seg start.Writes (testKey start.data) := by
  have leave : Touches start.seg start.Writes (mov (variable8 start.data escape) (imm 1)) :=
    (touches_leave start reaches).mono fun _ here => Or.inr (Or.inr (Or.inl here))
  have lookup : Touches start.seg start.Writes (run (indexKey ++ fetchKey start.data)) :=
    (touches_lookup start.data).mono fun _ none => none.elim
  have shown : Touches start.seg start.Writes
      (run (indexKey ++ (fetchKey start.data ++ drawKey start.data))) := by
    rw [← List.append_assoc]
    exact lookup.append (touches_drawKey start reaches)
  exact Touches.branch _ leave.single (Touches.branch _ Touches.nil shown).single

theorem touches_acknowledge : Touches seg (fun _ => False) (run acknowledge) := by
  have mark : Touches seg (fun _ => False) (X86.or al (imm 0x80)) := Touches.update writes_al _ _
  have command : Touches seg (fun _ => False) (mov al (imm 0x20)) := Touches.mov writes_al _
  exact (Touches.input writes_al _).cons (mark.cons ((Touches.output _ _).cons (command.cons
    ((Touches.output _ _).cons ((Touches.pop saves_edx.writes).cons
      ((Touches.pop saves_ebp.writes).cons ((Touches.pop saves_ebx.writes).cons
        (Touches.pop saves_eax.writes).single)))))))

theorem touches_newInt09 (reaches : start.Reaches) :
    Touches start.seg start.Writes (run (newInt09 start.data)) := by
  have save : Touches start.seg start.Writes (run readKey) :=
    (touches_readKey start).mono fun _ inside => Or.inl inside
  have restore : Touches start.seg start.Writes (run acknowledge) :=
    touches_acknowledge.mono fun _ none => none.elim
  rw [newInt09_eq]
  exact save.append ((touches_testKey start reaches).single.append restore)

end writes

end OsUnix.ProtectedMode
