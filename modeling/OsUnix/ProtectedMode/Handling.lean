import OsUnix.ProtectedMode.Controllers
import OsUnix.ProtectedMode.Returns
import OsUnix.X86.Depth

/-!
# What the handlers leave alone

How deep `new_int08` and `new_int09` go into the stack, what else they write and what they tell the
controllers.
-/

namespace OsUnix.ProtectedMode
open X86

section handlers

variable (start : Interrupted) {b : Nat}

def Interrupted.Below (b x : Nat) : Prop :=
  start.base + b ≤ x ∧ x < start.base + b + 20 ∨ (start.seg .es).Holds x ∨
    (start.seg start.data).base + escape.toNat ≤ x ∧
      x < (start.seg start.data).base + outPosition.toNat + 4

abbrev Interrupted.Descends (b : Nat) : Nat → Nat → Instr → Prop :=
  X86.Descends start.seg (start.Below b)

theorem descends_push {e e' : Nat} (o : Operand w) (room : e' + w / 8 = e) (low : b ≤ e')
    (high : e ≤ b + 20) : start.Descends b e e' (push o) := by
  have stack : (start.seg .ss).base = start.base := congrArg Segment.base start.stack
  apply X86.Descends.push o room (by omega)
  intro x above below
  rw [stack] at above below
  exact Or.inl ⟨by omega, by omega⟩

theorem descends_video {e : Nat} (w : Nat) (offset : Machine → BitVec 32) (o : Operand w) :
    start.Descends b e e (mov (memory w .es offset) o) := by
  apply X86.Descends.store w o
  intro m fits x above below
  exact Or.inr (Or.inl ⟨by omega, by omega⟩)

theorem descends_variable {e : Nat} {offset : BitVec 32} (o : Operand w)
    (low : escape.toNat ≤ offset.toNat) (high : offset.toNat + w / 8 ≤ outPosition.toNat + 4) :
    start.Descends b e e (mov (memory w start.data fun _ => offset) o) := by
  apply X86.Descends.store w o
  intro m _ x above below
  exact Or.inr (Or.inr ⟨by omega, by omega⟩)

theorem descends_prcyc1 {e : Nat} : start.Descends b e e (run prcyc1) := by
  have digit : start.Descends b e e (run createNumber) :=
    (X86.Descends.branch .nil (X86.Descends.update writes_dl _ _).single).cons
      ((X86.Descends.update writes_dl _ _).cons (X86.Descends.mov writes_dh _).single)
  have begin : start.Descends b e e (run [mov dl al, X86.and dl (imm 0x0F)]) :=
    (X86.Descends.mov writes_dl _).cons (X86.Descends.update writes_dl _ _).single
  exact (begin.append digit).append ((descends_video start 16 _ dx).cons
    ((X86.Descends.update saves_eax.writes _ _).cons (X86.Descends.update writes_edi _ _).single))

variable (small : b < 0x10000)
include small

theorem descends_myPrintEax : start.Descends b (b + 6) (b + 6) (run myPrintEax) := by
  have saveEcx : start.Descends b (b + 6) (b + 2) (push ecx) :=
    descends_push start ecx rfl (by omega) (by omega)
  have saveDx : start.Descends b (b + 2) b (push dx) :=
    descends_push start dx rfl (by omega) (by omega)
  have restoreDx : start.Descends b b (b + 2) (pop dx) :=
    X86.Descends.pop saves_dx.writes rfl (by omega)
  have restoreEcx : start.Descends b (b + 2) (b + 6) (pop ecx) :=
    X86.Descends.pop saves_ecx.writes rfl (by omega)
  exact saveEcx.cons (saveDx.cons ((X86.Descends.mov saves_ecx.writes _).cons
    ((X86.Descends.update writes_edi _ _).cons ((X86.Descends.rounds (descends_prcyc1 start) _).cons
      (restoreDx.cons restoreEcx.single)))))

theorem descends_newInt08 :
    start.Descends b (b + 20) (b + 20) (run (newInt08 start.data)) := by
  have saves : start.Descends b (b + 20) (b + 6) (run pushTimer) := by
    have first : start.Descends b (b + 20) (b + 16) (push eax) :=
      descends_push start eax rfl (by omega) (by omega)
    have second : start.Descends b (b + 16) (b + 12) (push ebp) :=
      descends_push start ebp rfl (by omega) (by omega)
    have third : start.Descends b (b + 12) (b + 8) (push ecx) :=
      descends_push start ecx rfl (by omega) (by omega)
    have fourth : start.Descends b (b + 8) (b + 6) (push dx) :=
      descends_push start dx rfl (by omega) (by omega)
    exact first.cons (second.cons (third.cons fourth.single))
  have restores : start.Descends b (b + 6) (b + 20) (run popTimer) := by
    have first : start.Descends b (b + 6) (b + 8) (pop dx) :=
      X86.Descends.pop saves_dx.writes rfl (by omega)
    have second : start.Descends b (b + 8) (b + 12) (pop ecx) :=
      X86.Descends.pop saves_ecx.writes rfl (by omega)
    have third : start.Descends b (b + 12) (b + 16) (pop ebp) :=
      X86.Descends.pop saves_ebp.writes rfl (by omega)
    have fourth : start.Descends b (b + 16) (b + 20) (pop eax) :=
      X86.Descends.pop saves_eax.writes rfl (by omega)
    exact first.cons (second.cons (third.cons ((X86.Descends.mov writes_al _).cons
      ((X86.Descends.output 0x20 al).cons fourth.single))))
  have count : start.Descends b (b + 6) (b + 6)
      (run [inc eax, mov (variable32 start.data time08) eax]) :=
    (X86.Descends.update saves_eax.writes _ _).cons
      (descends_variable start eax (by decide) (by decide)).single
  have fetch : start.Descends b (b + 6) (b + 6)
      (run [mov eax (variable32 start.data time08), mov edi (imm 2)]) :=
    (X86.Descends.mov saves_eax.writes _).cons (X86.Descends.mov writes_edi _).single
  rw [newInt08_eq]
  exact saves.append (fetch.append ((descends_myPrintEax start small).append
    (count.append restores)))

theorem descends_newInt09 :
    start.Descends b (b + 20) (b + 20) (run (newInt09 start.data)) := by
  have saves : start.Descends b (b + 20) (b + 4) (run readKey) := by
    have first : start.Descends b (b + 20) (b + 16) (push eax) :=
      descends_push start eax rfl (by omega) (by omega)
    have second : start.Descends b (b + 16) (b + 12) (push ebx) :=
      descends_push start ebx rfl (by omega) (by omega)
    have third : start.Descends b (b + 12) (b + 8) (push ebp) :=
      descends_push start ebp rfl (by omega) (by omega)
    have fourth : start.Descends b (b + 8) (b + 4) (push edx) :=
      descends_push start edx rfl (by omega) (by omega)
    exact first.cons (second.cons (third.cons (fourth.cons
      (X86.Descends.input writes_al _).single)))
  have restores : start.Descends b (b + 4) (b + 20) (run acknowledge) := by
    have first : start.Descends b (b + 4) (b + 8) (pop edx) :=
      X86.Descends.pop saves_edx.writes rfl (by omega)
    have second : start.Descends b (b + 8) (b + 12) (pop ebp) :=
      X86.Descends.pop saves_ebp.writes rfl (by omega)
    have third : start.Descends b (b + 12) (b + 16) (pop ebx) :=
      X86.Descends.pop saves_ebx.writes rfl (by omega)
    have fourth : start.Descends b (b + 16) (b + 20) (pop eax) :=
      X86.Descends.pop saves_eax.writes rfl (by omega)
    exact (X86.Descends.input writes_al _).cons ((X86.Descends.update writes_al _ _).cons
      ((X86.Descends.output _ _).cons ((X86.Descends.mov writes_al _).cons
        ((X86.Descends.output _ _).cons (first.cons (second.cons (third.cons fourth.single)))))))
  have index : start.Descends b (b + 4) (b + 4) (run indexKey) :=
    (X86.Descends.update writes_ah _ _).cons (X86.Descends.mov writes_bp _).single
  have fetch : start.Descends b (b + 4) (b + 4) (run (fetchKey start.data)) :=
    (X86.Descends.mov writes_dl _).cons (X86.Descends.mov saves_ebx.writes _).single
  have draw : start.Descends b (b + 4) (b + 4) (run (drawKey start.data)) :=
    (descends_video start 8 _ dl).cons ((X86.Descends.update saves_ebx.writes _ _).cons
      (descends_variable start ebx (by decide) (by decide)).single)
  have leave : start.Descends b (b + 4) (b + 4) (mov (variable8 start.data escape) (imm 1)) :=
    descends_variable start (imm 1) (by decide) (by decide)
  have test : start.Descends b (b + 4) (b + 4) (testKey start.data) :=
    X86.Descends.branch leave.single
      (X86.Descends.branch .nil (index.append (fetch.append draw))).single
  rw [newInt09_eq]
  exact saves.append (test.single.append restores)

end handlers

section steering

variable (data : SegReg)

theorem steers_newInt08 : Steers (·.out (0x20, 0x20)) (run (newInt08 data)) := by
  have variable_silent (offset) : Steers id (mov (variable32 data offset) eax) :=
    Steers.mov (silent_memory _ _ _) _
  have number : Steers id (run createNumber) :=
    (Steers.branch Steers.nil ((Steers.update (silent_low8 _) _ _).cons Steers.nil)).cons
      ((Steers.update (silent_low8 _) _ _).cons ((Steers.mov (silent_high8 _) _).cons Steers.nil))
  have begin : Steers id (run [mov dl al, X86.and dl (imm 0x0F)]) :=
    (Steers.mov (silent_low8 _) _).cons ((Steers.update (silent_low8 _) _ _).cons Steers.nil)
  have draw : Steers id (run [mov (memory 16 .es fun m => m.reg .edi) dx, ror eax 4,
      sub edi (imm 2)]) :=
    (Steers.mov (silent_memory _ _ _) _).cons ((Steers.update (silent_r32 _) _ _).cons
      ((Steers.update (silent_r32 _) _ _).cons Steers.nil))
  have print : Steers id (run myPrintEax) :=
    (Steers.push _).cons ((Steers.push _).cons ((Steers.mov (silent_r32 _) _).cons
      ((Steers.update (silent_r32 _) _ _).cons
        ((Steers.loop ((begin.append number).append draw)).cons
          ((Steers.pop (silent_r16 _)).cons ((Steers.pop (silent_r32 _)).cons Steers.nil))))))
  have saves : Steers id (run pushTimer) :=
    (Steers.push _).cons ((Steers.push _).cons ((Steers.push _).cons ((Steers.push _).cons
      Steers.nil)))
  have fetch : Steers id (run [mov eax (variable32 data time08), mov edi (imm 2)]) :=
    (Steers.mov (silent_r32 _) _).cons ((Steers.mov (silent_r32 _) _).cons Steers.nil)
  have count : Steers id (run [inc eax, mov (variable32 data time08) eax]) :=
    (Steers.update (silent_r32 _) _ _).cons ((variable_silent _).cons Steers.nil)
  have restores : Steers id (run [pop dx, pop ecx, pop ebp]) :=
    (Steers.pop (silent_r16 _)).cons ((Steers.pop (silent_r32 _)).cons
      ((Steers.pop (silent_r32 _)).cons Steers.nil))
  have final : Steers id (run [pop eax]) := (Steers.pop (silent_r32 _)).cons Steers.nil
  exact saves.append (fetch.append (print.append (count.append (restores.append
    ((Steers.tell .eax 0x20 0x20).append final)))))

theorem steers_newInt09 : Steers (·.out (0x20, 0x20)) (run (newInt09 data)) := by
  have saves : Steers id (run readKey) :=
    (Steers.push _).cons ((Steers.push _).cons ((Steers.push _).cons ((Steers.push _).cons
      ((Steers.input (silent_low8 _) _).cons Steers.nil))))
  have shown : Steers id (run (indexKey ++ (fetchKey data ++ drawKey data))) :=
    (Steers.update (silent_high8 _) _ _).cons ((Steers.mov (silent_r16 _) _).cons
      ((Steers.mov (silent_low8 _) _).cons ((Steers.mov (silent_r32 _) _).cons
        ((Steers.mov (silent_memory _ _ _) _).cons ((Steers.update (silent_r32 _) _ _).cons
          ((Steers.mov (silent_memory _ _ _) _).cons Steers.nil))))))
  have leave : Steers id (run [mov (variable8 data escape) (imm 1)]) :=
    (Steers.mov (silent_memory _ _ _) _).cons Steers.nil
  have test : Steers id (testKey data) :=
    Steers.branch leave ((Steers.branch Steers.nil shown).cons Steers.nil)
  have mark : Steers id (run [input al 0x61, X86.or al (imm 0x80), output 0x61 al]) :=
    (Steers.input (silent_low8 _) _).cons ((Steers.update (silent_low8 _) _ _).cons
      ((Steers.output_other _ fun _ _ => rfl).cons Steers.nil))
  have restores : Steers id (run [pop edx, pop ebp, pop ebx, pop eax]) :=
    (Steers.pop (silent_r32 _)).cons ((Steers.pop (silent_r32 _)).cons
      ((Steers.pop (silent_r32 _)).cons ((Steers.pop (silent_r32 _)).cons Steers.nil)))
  exact saves.append ((test.cons Steers.nil).append
    (mark.append ((Steers.tell .eax 0x20 0x20).append restores)))

end steering

def Handler.line : Handler → Nat
  | .newInt08 => 0
  | .newInt09 => 1

end OsUnix.ProtectedMode
