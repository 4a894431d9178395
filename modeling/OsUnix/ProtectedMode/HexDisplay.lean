import OsUnix.ProtectedMode.Transparency
import OsUnix.X86.Touches

/-!
# A number on the screen

What `my_print_eax` leaves in its eight cells.
-/

namespace OsUnix.ProtectedMode
open X86

def hexDigits : List Char :=
  ['0', '1', '2', '3', '4', '5', '6', '7', '8', '9', 'A', 'B', 'C', 'D', 'E', 'F']

def character (n : BitVec 4) : BitVec 8 := BitVec.ofNat 8 (hexDigits.getD n.toNat '0').toNat

def cell (n : BitVec 4) : BitVec 16 := 0x46#8 ++ character n

def number (b : BitVec 8) : BitVec 8 := (if b.slt 10 then b else b + (65 - 48 - 10)) + 48

theorem number_eq (v : BitVec 8) : number (v &&& 0x0F) = character (v.extractLsb' 0 4) := by
  revert v
  decide

def withDl (m : Machine) (v : BitVec 8) : Machine :=
  m.set .edx ((m.reg .edx).extractLsb' 8 24 ++ v)

theorem dl_withDl (m : Machine) (v : BitVec 8) : ((withDl m v).reg .edx).extractLsb' 0 8 = v := by
  rw [withDl, Machine.set_self]
  exact BitVec.extractLsb'_append_eq_right

theorem withDl_withDl (m : Machine) (v v' : BitVec 8) : withDl (withDl m v) v' = withDl m v' := by
  have upper : ((withDl m v).reg .edx).extractLsb' 8 24 = (m.reg .edx).extractLsb' 8 24 := by
    rw [withDl, Machine.set_self]
    exact BitVec.extractLsb'_append_eq_left
  rw [withDl, upper, withDl, Machine.set_set]
  rfl

theorem update_dl (m : Machine) (f) (v c : BitVec 8) :
    update f dl (imm c) (withDl m v) = some (withDl m (f v c)) := by
  have stored : update f dl (imm c) (withDl m v) =
      some (withDl (withDl m v) (f (((withDl m v).reg .edx).extractLsb' 0 8) c)) := rfl
  rw [stored, dl_withDl, withDl_withDl]

theorem run_number (m : Machine) :
    run ([mov dl al, X86.and dl (imm 0x0F)] ++ createNumber) m =
      some (m.set .edx ((m.reg .edx).extractLsb' 16 16 ++
        cell ((m.reg .eax).extractLsb' 0 4))) := by
  have nibble : ((m.reg .eax).extractLsb' 0 8).extractLsb' 0 4 = (m.reg .eax).extractLsb' 0 4 := by
    simp
  have load : mov dl al m = some (withDl m ((m.reg .eax).extractLsb' 0 8)) := rfl
  have mask := update_dl m (· &&& ·) ((m.reg .eax).extractLsb' 0 8) 0x0F
  have letter (v) : branch (dlLess 10) [] [X86.add dl (imm (65 - 48 - 10))] (withDl m v) =
      some (withDl m (if v.slt 10 then v else v + (65 - 48 - 10))) := by
    rw [branch, dlLess, dl_withDl, run_single]
    split
    · rfl
    · exact update_dl m (· + ·) v _
  apply run_step load
  apply run_step mask
  apply run_step (letter _)
  apply run_step (update_dl m (· + ·) _ 48)
  rw [run_single, cell, ← nibble, ← number_eq]
  have colour (v) : mov dh (imm 0x46) (withDl m v) =
      some (m.set .edx ((m.reg .edx).extractLsb' 16 16 ++ (0x46#8 ++ v))) := by
    have stored : mov dh (imm 0x46) (withDl m v) = some ((withDl m v).set .edx
        (((withDl m v).reg .edx).extractLsb' 16 16 ++
          (0x46#8 ++ ((withDl m v).reg .edx).extractLsb' 0 8))) := rfl
    have upper : ((withDl m v).reg .edx).extractLsb' 16 16 = (m.reg .edx).extractLsb' 16 16 := by
      rw [withDl, Machine.set_self, high_of_low8]
    rw [stored, dl_withDl, upper, withDl, Machine.set_set]
  exact colour _

theorem run_digitRound {m : Machine}
    (fits : (m.reg .edi).toNat + 2 ≤ (m.seg .es).limit + 1) :
    run digitRound m =
      some (((m.set .edx ((m.reg .edx).extractLsb' 16 16 ++
          cell ((m.reg .eax).extractLsb' 0 4))).put
        ((m.seg .es).base + (m.reg .edi).toNat) (cell ((m.reg .eax).extractLsb' 0 4))).set .eax
          ((m.reg .eax).rotateRight 4)) := by
  have number := run_number m
  generalize cell ((m.reg .eax).extractLsb' 0 4) = v at number ⊢
  have value : dx.get (m.set .edx ((m.reg .edx).extractLsb' 16 16 ++ v)) = some v := by
    simp only [dx, r16, Machine.set_self]
    exact congrArg some BitVec.extractLsb'_append_eq_right
  have drawn := mov_store (s := .es) (fun m => m.reg .edi) value fits
  apply run_join number
  exact run_step drawn (run_step rfl rfl)

def cells (mem : Nat → BitVec 8) (last : Nat) (v : BitVec 32) : Nat → Nat → BitVec 8
  | 0 => mem
  | k + 1 => write (cells mem last v k) (last - 2 * k) (cell (v.extractLsb' (4 * k) 4))

structure Display where
  machine : Machine
  room : 6 ≤ (machine.reg .esp).toNat
  top : (machine.reg .esp).toNat ≤ (machine.seg .ss).limit + 1
  inside : (machine.reg .edi).toNat + 174 ≤ (machine.seg .es).limit + 1
  unwrapped : (machine.reg .edi).toNat + 174 ≤ 2 ^ 32
  beside : (machine.seg .ss).base + (machine.seg .ss).limit < (machine.seg .es).base ∨
    (machine.seg .es).base + (machine.seg .es).limit < (machine.seg .ss).base

structure Rolling (s : Machine) (c : BitVec 32) (t : Machine) : Prop where
  seg : t.seg = s.seg
  counter : t.reg .ecx = c
  bound : c.toNat ≤ 8
  eax : t.reg .eax = turned (s.reg .eax) (8 - c.toNat)
  edi : t.reg .edi = s.reg .edi - BitVec.ofNat 32 (2 * (8 - c.toNat))
  high : (t.reg .edx).extractLsb' 16 16 = (s.reg .edx).extractLsb' 16 16
  esp : t.reg .esp = s.reg .esp
  mem : t.mem = cells s.mem ((s.seg .es).base + (s.reg .edi).toNat) (s.reg .eax) (8 - c.toNat)

theorem total_round {s : Machine} (low : 14 ≤ (s.reg .edi).toNat)
    (inside : (s.reg .edi).toNat + 2 ≤ (s.seg .es).limit + 1) (c : BitVec 32) (nonzero : c ≠ 0) :
    Total (Rolling s c) (run prcyc1)
      fun t => t.reg .ecx = c ∧ Rolling s (c - 1) (t.set .ecx (c - 1)) := by
  intro m rolling
  have less := toNat_pred nonzero
  have bound := rolling.bound
  have next : 8 - (c - 1).toNat = 8 - c.toNat + 1 := by omega
  have few : 8 - c.toNat < 8 := by omega
  generalize done : 8 - c.toNat = k at few next
  have place : (m.reg .edi).toNat = (s.reg .edi).toNat - 2 * k := by
    rw [rolling.edi, done]
    bv_omega
  have digit : (m.reg .eax).extractLsb' 0 4 = (s.reg .eax).extractLsb' (4 * k) 4 := by
    rw [rolling.eax, done, nibble_turned _ few]
  have drawn := run_digitRound (m := m) (by rw [place, rolling.seg]; omega)
  rw [digit, place, rolling.seg] at drawn
  rw [prcyc1_eq]
  refine ⟨_, run_join drawn rfl, rolling.counter, rolling.seg, rfl, by omega, ?_, ?_, ?_,
    rolling.esp, ?_⟩
  · rw [next, turned, ← done, ← rolling.eax]
    rfl
  · have moved : m.reg .edi - 2 = s.reg .edi - BitVec.ofNat 32 (2 * (8 - (c - 1).toNat)) := by
      rw [rolling.edi, next, done]
      bv_omega
    exact moved
  · exact BitVec.extractLsb'_append_eq_left.trans rolling.high
  · have address : (s.seg .es).base + ((s.reg .edi).toNat - 2 * k) =
        (s.seg .es).base + (s.reg .edi).toNat - 2 * k := by omega
    rw [next, cells, ← address, ← done, ← rolling.mem]
    rfl

section printing

variable (d : Display)

def Display.last : Nat := (d.machine.seg .es).base + (d.machine.reg .edi).toNat + 172

def Display.saved : Nat → BitVec 8 :=
  let base := (d.machine.seg .ss).base
  let top := (d.machine.reg .esp).toNat
  write (write d.machine.mem (base + (top - 4)) (d.machine.reg .ecx)) (base + (top - 4 - 2))
    ((d.machine.reg .edx).extractLsb' 0 16)

structure Display.Printed (t : Machine) : Prop where
  seg : t.seg = d.machine.seg
  eax : t.reg .eax = d.machine.reg .eax
  ecx : t.reg .ecx = d.machine.reg .ecx
  edx : t.reg .edx = d.machine.reg .edx
  esp : t.reg .esp = d.machine.reg .esp
  mem : t.mem = cells d.saved d.last (d.machine.reg .eax) 8

theorem cells_outside {mem : Nat → BitVec 8} (v : BitVec 32) (few : k ≤ 8)
    (outside : x + 14 < last ∨ last + 2 ≤ x) : cells mem last v k x = mem x := by
  induction k with
  | zero => rfl
  | succ k ih =>
      rw [cells, write_outside (by omega), ih (by omega)]

theorem word_cells {mem : Nat → BitVec 8} (v : BitVec 32)
    (outside : a + w / 8 + 14 ≤ last ∨ last + 2 ≤ a) :
    word (cells mem last v 8) w a = word mem w a :=
  word_congr fun x low high => cells_outside v (Nat.le_refl 8) (by omega)

def printRounds : List Instr := [mov ecx (imm 8), X86.add edi (imm 172), loop prcyc1]

theorem run_printRounds {s : Machine} (inside : (s.reg .edi).toNat + 174 ≤ (s.seg .es).limit + 1)
    (unwrapped : (s.reg .edi).toNat + 174 ≤ 2 ^ 32) :
    ∃ t, run printRounds s = some t ∧ t.seg = s.seg ∧ t.reg .eax = s.reg .eax ∧
      (t.reg .edx).extractLsb' 16 16 = (s.reg .edx).extractLsb' 16 16 ∧
      t.reg .esp = s.reg .esp ∧
      t.mem = cells s.mem ((s.seg .es).base + (s.reg .edi).toNat + 172) (s.reg .eax) 8 := by
  have moved : (s.reg .edi + 172).toNat = (s.reg .edi).toNat + 172 := by bv_omega
  have begin : Rolling ((s.set .ecx 8).set .edi (s.reg .edi + 172)) 8
      ((s.set .ecx 8).set .edi (s.reg .edi + 172)) :=
    ⟨rfl, rfl, by decide, rfl, (BitVec.sub_zero _).symm, rfl, rfl, rfl⟩
  have place : ((s.set .ecx 8).set .edi (s.reg .edi + 172)).reg .edi = s.reg .edi + 172 := rfl
  obtain ⟨t, done, rolled⟩ := Total.loop (total_round (by rw [place]; omega)
    (by rw [place, moved]; exact inside)) (by decide : (8 : BitVec 32) ≠ 0) _ begin
  refine ⟨t, run_step rfl (run_step rfl ((run_single _ _).trans done)), rolled.seg, ?_, rolled.high,
    rolled.esp, ?_⟩
  · exact rolled.eax.trans (turned_eight _)
  · rw [Nat.add_assoc, ← moved]
    exact rolled.mem

theorem esp_saved : ((d.machine.pushed (d.machine.reg .ecx)).reg .esp).toNat =
    (d.machine.reg .esp).toNat - 4 :=
  toNat_esp_pushed _ (by decide) (Nat.le_trans (by decide) d.room)

theorem mem_saved : ((d.machine.pushed (d.machine.reg .ecx)).pushed
    ((d.machine.reg .edx).extractLsb' 0 16)).mem = d.saved := by
  have esp := esp_saved d
  simp only [Machine.pushed, Machine.put] at esp ⊢
  rw [esp]
  rfl

theorem kept_saved :
    word (cells d.saved d.last v 8) 16
        ((d.machine.seg .ss).base + ((d.machine.reg .esp).toNat - 4 - 2)) =
      (d.machine.reg .edx).extractLsb' 0 16 ∧
    word (cells d.saved d.last v 8) 32
        ((d.machine.seg .ss).base + ((d.machine.reg .esp).toNat - 4)) = d.machine.reg .ecx := by
  have room := d.room
  have top := d.top
  have inside := d.inside
  have beside := d.beside
  constructor
  · rw [word_cells _ (by rw [Display.last]; omega)]
    exact word_write _ _ _ rfl
  · rw [word_cells _ (by rw [Display.last]; omega), Display.saved, word_apart (by omega)]
    exact word_write _ _ _ rfl

theorem run_myPrintEax : ∃ t, run myPrintEax d.machine = some t ∧ d.Printed t := by
  have room := d.room
  have top := d.top
  have esp := esp_saved d
  obtain ⟨t₃, ran, seg₃, eax₃, edx₃, esp₃, mem₃⟩ :=
    run_printRounds (s := (d.machine.pushed (d.machine.reg .ecx)).pushed
      ((d.machine.reg .edx).extractLsb' 0 16)) d.inside d.unwrapped
  rw [mem_saved] at mem₃
  have mem : t₃.mem = cells d.saved d.last (d.machine.reg .eax) 8 := mem₃
  obtain ⟨keptDx, keptEcx⟩ := kept_saved d (v := d.machine.reg .eax)
  rw [← mem] at keptDx keptEcx
  obtain ⟨t₂, inner, seg₂, mem₂, esp₂, restored₂, others₂⟩ :=
    saved_returns saves_dx (s := d.machine.pushed (d.machine.reg .ecx)) rfl (by rw [esp]; omega)
      (by rw [esp]; exact Nat.le_trans (Nat.sub_le _ _) top) ran seg₃ esp₃
      (by rw [esp]; exact keptDx)
  obtain ⟨t, done, seg, mem₁, final, restored, others⟩ :=
    saved_returns saves_ecx rfl (Nat.le_trans (by decide) room) top inner seg₂ esp₂
      (by rw [mem₂]; exact keptEcx)
  refine ⟨t, done, seg, ?_, ?_, ?_, final, by rw [mem₁, mem₂, mem]⟩
  · have low := (others (.eax, .low) (by decide) (by decide)).trans
      (others₂ _ (by decide) (by decide))
    have high := (others (.eax, .high) (by decide) (by decide)).trans
      (others₂ _ (by decide) (by decide))
    exact (reg_eq_of_parts low high).trans eax₃
  · exact reg_eq_of_parts (restored _ (by decide)) (restored _ (by decide))
  · have low := (others (.edx, .low) (by decide) (by decide)).trans (restored₂ _ (by decide))
    have high := (others (.edx, .high) (by decide) (by decide)).trans
      (others₂ _ (by decide) (by decide))
    exact reg_eq_of_parts low (high.trans edx₃)

variable {d}

theorem Display.Printed.mem_outside (printed : d.Printed t) (away : ¬ (d.machine.seg .ss).Holds x)
    (outside : x + 14 < d.last ∨ d.last + 2 ≤ x) : t.mem x = d.machine.mem x := by
  have room := d.room
  have top := d.top
  have beside : x < (d.machine.seg .ss).base ∨
      (d.machine.seg .ss).base + (d.machine.seg .ss).limit < x := by
    by_contra within
    exact away ⟨by omega, by omega⟩
  rw [printed.mem, cells_outside _ (Nat.le_refl 8) outside]
  simp only [Display.saved]
  rw [write_outside (by omega), write_outside (by omega)]

end printing

theorem cells_at (mem : Nat → BitVec 8) (v : BitVec 32) (few : k ≤ 8) (digit : i < k)
    (room : 14 ≤ last) :
    cells mem last v k (last - 2 * i) = character (v.extractLsb' (4 * i) 4) ∧
      cells mem last v k (last - 2 * i + 1) = 0x46 := by
  induction k with
  | zero => exact absurd digit (Nat.not_lt_zero i)
  | succ k ih =>
      by_cases latest : i = k
      · subst latest
        simp only [cells, write]
        constructor
        · rw [if_pos (by omega), Nat.sub_self]
          exact BitVec.extractLsb'_append_eq_right
        · rw [if_pos (by omega), Nat.add_sub_cancel_left]
          exact BitVec.extractLsb'_append_eq_left
      · obtain ⟨letter, colour⟩ := ih (by omega) (by omega)
        rw [cells, write_outside (by omega), write_outside (by omega)]
        exact ⟨letter, colour⟩

def hex (v : BitVec 32) : List Char :=
  (List.range 8).map fun i => hexDigits.getD (v.toNat / 16 ^ (7 - i) % 16) '0'

example : hex 0x2F0A = ['0', '0', '0', '0', '2', 'F', '0', 'A'] := by decide

def Shows (mem : Nat → BitVec 8) (last : Nat) (text : List Char) : Prop :=
  ∀ i (inside : i < text.length),
    mem (last - 2 * (text.length - 1 - i)) = BitVec.ofNat 8 text[i].toNat ∧
    mem (last - 2 * (text.length - 1 - i) + 1) = 0x46

theorem shows_hex {mem : Nat → BitVec 8} (v : BitVec 32) (room : 14 ≤ last) :
    Shows (cells mem last v 8) last (hex v) := by
  intro i inside
  have length : (hex v).length = 8 := by simp [hex]
  rw [length] at inside
  obtain ⟨digit, colour⟩ := cells_at mem v (Nat.le_refl 8)
    (by omega : 8 - 1 - i < 8) room
  simp only [length]
  refine ⟨digit.trans ?_, colour⟩
  rw [character, toNat_nibble]
  simp [hex]

end OsUnix.ProtectedMode
