import OsUnix.ProtectedMode.Keyboard
import OsUnix.ProtectedMode.Megabytes

/-!
# Interrupts while the memory is counted

The handlers of the program disturb nothing that `compute_memory` works with.
-/

namespace OsUnix.ProtectedMode
open X86

structure Entry where
  machine : Machine
  frame : BitVec 96
  start : Interrupted
  entered : start.machine = machine.pushed frame
  room : 12 ≤ (machine.reg .esp).toNat
  top : (machine.reg .esp).toNat ≤ 0x100
  reaches : start.Reaches

def iretd (m : Machine) : Machine := m.set .esp (m.reg .esp + 12)

section entry

variable (entry : Entry)

theorem frame_in_stack (low : (entry.machine.seg .ss).base +
      ((entry.machine.reg .esp).toNat - 12) ≤ x)
    (high : x < (entry.machine.seg .ss).base + (entry.machine.reg .esp).toNat) :
    (entry.start.seg .ss).Holds x := by
  have top := entry.top
  have same : entry.start.seg = entry.machine.seg := by
    rw [Interrupted.seg, entry.entered]
    rfl
  have limit : (entry.start.seg .ss).limit = 0xFF := congrArg Segment.limit entry.start.stack
  rw [same] at limit ⊢
  exact ⟨by omega, by omega⟩

theorem undisturbed_newInt08 : ∃ t,
    run (newInt08 entry.start.data) entry.start.machine = some t ∧
      Undisturbed Working entry.start.Ticks entry.machine (iretd t) := by
  obtain ⟨t, done, _⟩ := total_newInt08 entry.start entry.start.room entry.start.top
    entry.start.machine ⟨rfl, rfl, rfl⟩
  have kept := frame_newInt08 entry.start _ t rfl done
  have ticked := ticked_newInt08 entry.start entry.reaches done
  rw [entry.entered] at kept
  refine ⟨t, done, Undisturbed.of_handler entry.room kept ?_ ?_ ?_⟩
  · intro r working _
    revert working
    cases r <;> decide
  · intro x outside
    rw [ticked.mem x outside, entry.entered]
  · intro x low high
    exact Or.inl (frame_in_stack entry low high)

theorem undisturbed_newInt09 (inTable : entry.start.InTable)
    (done : run (newInt09 entry.start.data) entry.start.machine = some t) :
    Undisturbed Working entry.start.Types entry.machine (iretd t) := by
  have kept := frame_newInt09 entry.start _ t rfl done
  rw [entry.entered] at kept
  refine Undisturbed.of_handler entry.room kept ?_ ?_ ?_
  · intro r _ _
    exact Finset.disjoint_empty_right _
  · intro x outside
    rw [mem_newInt09 entry.reaches inTable done outside, entry.entered]
  · intro x low high
    exact Or.inl (frame_in_stack entry low high)

end entry

section area

structure Area where
  base : Nat
  size : Nat
  low : 0x500 ≤ base
  high : base + size ≤ 0xA0000
  defined : outPosition.toNat + 4 ≤ size

namespace Area

variable (area : Area) {m : Machine}

def Written (x : Nat) : Prop :=
  area.base ≤ x ∧ x < area.base + 0x100 ∨ 0xB8000 ≤ x ∧ x < 0xB8000 + 4000 ∨
    area.base + escape.toNat ≤ x ∧ x < area.base + outPosition.toNat + 4

theorem written_low (written : area.Written x) : x < 2 ^ 20 := by
  have high := area.high
  have defined := area.defined
  have position : outPosition.toNat = 515 := rfl
  simp only [Written] at written
  omega

theorem written_of_stack {start : Interrupted} (base : start.base = area.base)
    (inside : (start.seg .ss).Holds x) : area.Written x := by
  have stack : start.seg .ss = ⟨40, start.base, 0x100 - 1⟩ := start.stack
  rw [stack, base] at inside
  exact Or.inl ⟨inside.1, Nat.lt_of_le_of_lt inside.2 (by simp only; omega)⟩

theorem written_of_ticks {start : Interrupted} (base : start.base = area.base)
    (ticks : start.Ticks x) : area.Written x := by
  have video : (start.seg .es).base = 0xB8000 := congrArg Segment.base start.video
  have place : time08.toNat = 349 := rfl
  have flag : escape.toNat = 348 := rfl
  have position : outPosition.toNat = 515 := rfl
  rcases ticks with stack | cells | counter
  · exact area.written_of_stack base stack
  · exact Or.inr (Or.inl ⟨by omega, by omega⟩)
  · exact Or.inr (Or.inr ⟨by omega, by omega⟩)

theorem written_of_types {start : Interrupted} (base : start.base = area.base)
    (shown : (position start.base start.machine).toNat < 4000) (types : start.Types x) :
    area.Written x := by
  have video : (start.seg .es).base = 0xB8000 := congrArg Segment.base start.video
  have flag : escape.toNat = 348 := rfl
  have place : outPosition.toNat = 515 := rfl
  rcases types with stack | leave | next | cell
  · exact area.written_of_stack base stack
  · exact Or.inr (Or.inr ⟨by omega, by omega⟩)
  · exact Or.inr (Or.inr ⟨by omega, by omega⟩)
  · exact Or.inr (Or.inl ⟨by omega, by omega⟩)

def Ready (m : Machine) : Prop :=
  m.seg .cs = ⟨24, area.base, area.size - 1⟩ ∧ m.seg .ss = ⟨40, area.base, 0x100 - 1⟩ ∧
    m.seg .es = ⟨48, 0xB8000, 0xF0F9F⟩ ∧ 32 ≤ (m.reg .esp).toNat ∧ (m.reg .esp).toNat ≤ 0x100

instance (m : Machine) : Decidable (area.Ready m) :=
  inferInstanceAs (Decidable (_ ∧ _ ∧ _ ∧ _ ∧ _))

variable {area}

def interrupted (ready : area.Ready m) (frame : BitVec 96) : Entry where
  machine := m
  frame
  start :=
    have depth : ((m.pushed frame).reg .esp).toNat = (m.reg .esp).toNat - 12 :=
      toNat_esp_pushed frame (by decide) (by have room := ready.2.2.2.1; omega)
    { machine := m.pushed frame
      base := area.base
      size := area.size
      data := .cs
      low := area.low
      high := area.high
      defined := area.defined
      stack := ready.2.1
      video := ready.2.2.1
      placed := Or.inl ⟨congrArg Segment.base ready.1, congrArg Segment.limit ready.1⟩
      room := by have room := ready.2.2.2.1; omega
      top := by have top := ready.2.2.2.2; omega }
  entered := rfl
  room := by have room := ready.2.2.2.1; omega
  top := ready.2.2.2.2
  reaches := congrArg Segment.base ready.1

variable (area)

/-- An interrupt. Keys come only while their code has an entry in the table and the text has not
reached the end of the screen. -/
def serve (handler : Handler) (frame : BitVec 96) (m : Machine) : Machine :=
  if ready : area.Ready m then
    let start := (interrupted ready frame).start
    let served := ((run (handler.code .cs) (m.pushed frame)).map iretd).getD m
    match handler with
    | .newInt08 => served
    | .newInt09 =>
        if (start.Prints → start.index.toNat < 54) ∧
          (position start.base start.machine).toNat < 4000 then served
        else m
  else m

theorem serve_newInt08 (ready : area.Ready m) (frame : BitVec 96) :
    ∃ t, run (newInt08 .cs) (m.pushed frame) = some t ∧
      area.serve .newInt08 frame m = iretd t := by
  obtain ⟨t, done, -⟩ := undisturbed_newInt08 (interrupted ready frame)
  have done : run (newInt08 .cs) (m.pushed frame) = some t := done
  refine ⟨t, done, ?_⟩
  rw [serve, dif_pos ready]
  simp only [Handler.code, done]
  rfl

theorem undisturbed_serve (handler : Handler) (frame : BitVec 96) (m : Machine) :
    Undisturbed Working area.Written m (area.serve handler frame m) := by
  by_cases ready : area.Ready m
  · cases handler with
    | newInt08 =>
      obtain ⟨t, done, served⟩ := area.serve_newInt08 ready frame
      obtain ⟨u, done', same⟩ := undisturbed_newInt08 (interrupted ready frame)
      cases Option.some.inj (done.symm.trans done')
      rw [served]
      exact same.mono fun x => area.written_of_ticks rfl
    | newInt09 =>
      rw [serve, dif_pos ready]
      simp only [Handler.code]
      split
      · rename_i fits
        cases done : run (newInt09 .cs) (m.pushed frame) with
        | none => exact .refl m
        | some t =>
          have same := undisturbed_newInt09 (interrupted ready frame) (inTable_iff.mpr fits.1) done
          exact same.mono fun x => area.written_of_types rfl fits.2
      · exact .refl m
  · rw [serve, dif_neg ready]
    exact .refl m

def sizing (board : Board) (machine : Machine) (ready : area.Ready machine)
    (data : machine.seg .ds = ⟨32, area.base, area.size - 1⟩)
    (settled : board.Settled machine) (schedule : Nat → Option (Handler × BitVec 96)) : Sizing where
  board
  base := area.base
  pmSize := area.size
  conventional := by
    have high := area.high
    have defined := area.defined
    have place : outPosition.toNat = 515 := rfl
    omega
  machine
  data
  stack := ready.2.1
  room := Nat.le_trans (by decide) ready.2.2.2.1
  top := ready.2.2.2.2
  settled
  written := area.Written
  below _ := area.written_low
  interrupt n m :=
    match schedule n with
    | none => m
    | some (handler, frame) => area.serve handler frame m
  restored n m := by
    cases schedule n with
    | none => exact .refl m
    | some served => exact area.undisturbed_serve served.1 served.2 m

end Area

def ticking : Sizing :=
  Area.sizing ⟨smallest.base, smallest.pmSize, by decide, by decide, by decide⟩ smallest.board
    smallest.machine (by decide) rfl smallest.settled fun _ => some (.newInt08, 0)

theorem counts_megabytes_ticking : ∃ n₁ m₁ n₂ m₂ n₃ m₃,
    ticking.run 0 n₁ ⟨0, ticking.machine⟩ = some ⟨check, m₁⟩ ∧
    ticking.run n₁ n₂ ⟨check, m₁⟩ = some ⟨endOfMemory, m₂⟩ ∧
    ticking.run (n₁ + n₂) n₃ ⟨endOfMemory, m₂⟩ = some ⟨17, m₃⟩ ∧
    (∀ x < 2 ^ 20 + 2, ¬ ticking.written x → m₂.mem x = m₁.mem x) ∧
    m₃.reg .eax = BitVec.ofNat 32 ((2 ^ 20 + 2) / 2 ^ 20) :=
  counts_megabytes ticking

end area

end OsUnix.ProtectedMode
