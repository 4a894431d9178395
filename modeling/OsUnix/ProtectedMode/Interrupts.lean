import OsUnix.ProtectedMode.Excursion

/-!
# What every run keeps

The invariant of protected mode between `sti` and `cli`, and what follows from it for the tables,
for the next tick and for the controllers.
-/

namespace OsUnix.ProtectedMode
open X86

namespace Excursion

variable (e : Excursion)

section interrupts

variable {e} {pc : Nat} {m t : Machine}

theorem Placed.room (placed : e.Placed pc m) (frame : BitVec 96) :
    ((m.pushed frame).reg .esp).toNat + 12 = (layout pc).depth := by
  have deep := (layout_bounds pc).1
  have esp := placed.esp
  have pushed := toNat_esp_pushed (m := m) frame (by decide) (by omega)
  omega

def Placed.interrupted (placed : e.Placed pc m) (frame : BitVec 96) : Interrupted where
  machine := m.pushed frame
  base := e.base
  size := e.size
  data := e.data
  low := e.low
  high := e.high
  defined := e.defined
  stack := placed.ss
  video := placed.es
  placed := placed.reaches
  room := by
    have deep := (layout_bounds pc).1
    have depth := placed.room frame
    omega
  top := by
    have high := (layout_bounds pc).2.1
    have depth := placed.room frame
    omega

theorem descends_handler (start : Interrupted) (small : b < 0x10000) (handler : Handler) :
    start.Descends b (b + 20) (b + 20) (run (handler.code start.data)) := by
  cases handler with
  | newInt08 => exact descends_newInt08 start small
  | newInt09 => exact descends_newInt09 start small

theorem frame_handler (start : Interrupted) (handler : Handler) :
    Frame start.seg (whole .edi) (run (handler.code start.data)) := by
  cases handler with
  | newInt08 => exact frame_newInt08 start
  | newInt09 => exact (frame_newInt09 start).mono (Finset.empty_subset _)

theorem steers_handler (data : SegReg) (handler : Handler) :
    Steers (·.out (0x20, 0x20)) (run (handler.code data)) := by
  cases handler with
  | newInt08 => exact steers_newInt08 data
  | newInt09 => exact steers_newInt09 data

theorem Placed.handled (placed : e.Placed pc m) {frame : BitVec 96} {handler : Handler}
    (done : run (handler.code e.data) (m.pushed frame) = some t) : e.Placed pc (iretd t) := by
  obtain ⟨deep, high, -, -⟩ := layout_bounds pc
  obtain ⟨b, depth⟩ : ∃ b, (layout pc).depth = b + 32 := ⟨_, (Nat.sub_add_cancel (by omega)).symm⟩
  have room := placed.room frame
  have kept := frame_handler (placed.interrupted frame) handler _ t rfl done
  obtain ⟨-, -, mem⟩ := descends_handler (placed.interrupted frame) (b := b) (by omega) handler _ t
    rfl (by change ((m.pushed frame).reg .esp).toNat = b + 20; omega) done
  have esp : (iretd t).reg .esp = m.reg .esp := by
    rw [iretd, Machine.set_self, kept.esp]
    exact BitVec.sub_add_cancel _ _
  have same (r) (other : r ≠ .esp) (free : Disjoint (whole r) (whole .edi)) :
      (iretd t).reg r = m.reg r := by
    rw [iretd, Machine.set_other _ _ other, kept.reg free]
    exact m.set_other _ other
  refine placed.move placed.bound rfl kept.seg esp ?_
    (holding_of_regs (same .eax (by decide) (by decide)) (same .ebx (by decide) (by decide))
      (same .ecx (by decide) (by decide)) placed.holding)
  intro x inside
  have low := e.low
  have below := guarded_low inside deep
  have flag : escape.toNat = 348 := rfl
  have position : outPosition.toNat = 515 := rfl
  have untouched : ¬ (placed.interrupted frame).Below b x := by
    have video : ((placed.interrupted frame).seg .es).base = 0xB8000 := congrArg _ placed.es
    have register : ((placed.interrupted frame).seg e.data).base = e.base ∨
        ((placed.interrupted frame).seg e.data).base = 0 := placed.reaches.imp And.left And.left
    have stack : (placed.interrupted frame).base = e.base := rfl
    have reached : (placed.interrupted frame).data = e.data := rfl
    have place : e.base = 16 * e.segments.pm.toNat := rfl
    simp only [Interrupted.Below, Segment.Holds, stack, reached]
    simp only [Guarded] at inside
    omega
  refine (mem x untouched).trans (write_outside ?_)
  have stack : (m.seg .ss).base = e.base := congrArg Segment.base placed.ss
  have lowered : (m.reg .esp).toNat = (layout pc).depth := placed.esp
  simp only [Guarded] at inside
  omega

end interrupts

section runs

variable {e}

structure Sound (e : Excursion) (s : State) : Prop where
  placed : e.Placed s.point.pc s.point.machine
  controllers : s.controllers = takenOver e.controllers

theorem sound_start : e.Sound e.start where
  placed := ⟨Nat.zero_le _, rfl, e.stack, e.video, e.ds, e.esp, fun _ _ => rfl, nofun, nofun,
    trivial⟩
  controllers := rfl

theorem Sound.step (sound : e.Sound s) (step : e.Step s s') : e.Sound s' := by
  cases step with
  | line line moved => exact ⟨(leads_program line _ _ sound.placed moved).settle, sound.controllers⟩
  | interrupt accepted gate done told =>
    refine ⟨(sound.placed.handled done).settle, ?_⟩
    obtain ⟨sent, sends, effect⟩ := steers_handler e.data _ _ _ done
    cases List.append_cancel_left (told.symm.trans sends)
    cases sound.controllers
    exact (effect _).trans (interrupt_takenOver e.idle.1 accepted).2

theorem sound_of_reachable (reached : e.Reachable s) : e.Sound s := by
  induction reached with
  | refl => exact sound_start
  | tail _ step sound => exact sound.step step

theorem pm_kept (sound : e.Sound s) (low : 0x100 ≤ offset) (high : offset + 1 ≤ escape.toNat) :
    s.point.machine.mem (e.base + offset) = e.machine.mem (e.base + offset) :=
  sound.placed.tables _ (Or.inr ⟨by omega, by omega⟩)

theorem gate_kept (sound : e.Sound s) (handled : 32 ≤ n) (few : n < 34) :
    e.segments.gate s.point.machine.mem n = e.segments.gate e.machine.mem n := by
  apply gate_congr few
  intro x low high
  have place : e.segments.linear idt = e.base + 62 := rfl
  have flag : escape.toNat = 348 := rfl
  rw [Segments.gateLinear, place] at low high
  obtain ⟨offset, rfl⟩ := Nat.exists_eq_add_of_le (show e.base ≤ x by omega)
  exact pm_kept sound (by omega) (by omega)

end runs

def realMode (mem : Nat → BitVec 8) : Machine where
  reg _ := 0
  seg _ := paragraph 0x1000
  mem := mem
  port p := if p = 0x21 then 0xB8 else if p = 0xA1 then 0x8E else 0
  sent := []

def visit : Excursion where
  segments := ⟨0x1000, 0x2000, 0x3000⟩
  size := 0x330
  data := .ds
  board := ⟨0x100000, 0, by decide, by decide, Or.inl rfl⟩
  entries := ⟨0x26D, 0x272, 0x2DB⟩
  back := 0x250
  machine :=
    { reg := fun
        | .esp => 0x100
        | _ => 0
      seg := fun
        | .cs => ⟨24, 0x10000, 0x32F⟩
        | .ds => ⟨32, 0x10000, 0x32F⟩
        | .es => ⟨48, 0xB8000, 0xF0F9F⟩
        | .fs => ⟨8, 0, 0xFFFFFFFF⟩
        | .gs => ⟨0, 0, 0⟩
        | .ss => ⟨40, 0x10000, 0x100 - 1⟩
      mem := Segments.prepared ⟨0x1000, 0x2000, 0x3000⟩ ⟨0x26D, 0x272, 0x2DB⟩
        (realMode fun _ => 0).port fun _ => 0
      port := fun _ => 0
      sent := [] }
  controllers := ⟨⟨.mask, 8, 0xB8, 0⟩, ⟨.mask, 0x70, 0x8E, 0⟩⟩
  low := by decide
  high := by decide
  defined := by decide
  stack := rfl
  video := rfl
  ds := rfl
  reached := Or.inl rfl
  esp := rfl
  timer := (handlers_prepared _ _ _ _).1
  keyboard := (handlers_prepared _ _ _ _).2
  idle := ⟨⟨rfl, rfl⟩, rfl, rfl⟩

variable {e}

theorem served_of_sound (sound : e.Sound s) (frame : BitVec 96) :
    ∃ t, run (newInt08 e.data) (s.point.machine.pushed frame) = some t ∧
      e.Step s ⟨⟨s.point.pc, e.board.settle (iretd t)⟩, s.controllers⟩ := by
  obtain ⟨⟨pc, m⟩, c⟩ := s
  obtain rfl : c = takenOver e.controllers := sound.controllers
  obtain ⟨t, done, -⟩ := total_newInt08 (sound.placed.interrupted frame)
    (sound.placed.interrupted frame).room (sound.placed.interrupted frame).top
      (sound.placed.interrupted frame).machine ⟨rfl, rfl, rfl⟩
  refine ⟨t, done, ?_⟩
  obtain ⟨sent, sends, effect⟩ := steers_newInt08 e.data _ _ done
  have accepted : (takenOver e.controllers).interrupt (.inl 0) =
      some (⟨(takenOver e.controllers).master.acknowledge 0, (takenOver e.controllers).slave⟩,
        32) := by
    have unmasked : (takenOver e.controllers).master.accepts 0 = true := by
      rw [Pic.accepts_of_idle (idle_takenOver e.idle.1)]
      exact (by decide : (!(0xFC : BitVec 8).getLsbD (0 : Fin 8)) = true)
    exact if_pos ⟨by decide, unmasked⟩
  have entered : e.entry .newInt08 = (e.segments.gate m.mem (32 : BitVec 8).toNat).offset := by
    rw [show (32 : BitVec 8).toNat = 32 from rfl, gate_kept sound (by decide) (by decide)]
    exact e.timer.symm
  have step : e.Step ⟨⟨pc, m⟩, takenOver e.controllers⟩ ⟨⟨pc, e.board.settle (iretd t)⟩, _⟩ :=
    .interrupt accepted entered done sends
  rwa [(effect _).trans (interrupt_takenOver e.idle.1 accepted).2] at step

/-- A tick faults at no line, and the program goes on where it was. -/
theorem tick_served (addressed : e.data = .ds) (reached : e.Reachable s) (frame : BitVec 96) :
    ∃ t, run (newInt08 .ds) (s.point.machine.pushed frame) = some t ∧
      e.Step s ⟨⟨s.point.pc, e.board.settle (iretd t)⟩, s.controllers⟩ := by
  rw [← addressed]
  exact served_of_sound (sound_of_reachable reached) frame

theorem tick_served_twice : ∃ t u,
    run (newInt08 .ds) (visit.start.point.machine.pushed (0 : BitVec 96)) = some t ∧
    run (newInt08 .ds) ((visit.board.settle (iretd t)).pushed (0 : BitVec 96)) = some u ∧
      visit.Step ⟨⟨0, visit.board.settle (iretd t)⟩, visit.start.controllers⟩
        ⟨⟨0, visit.board.settle (iretd u)⟩, visit.start.controllers⟩ := by
  obtain ⟨t, done, step⟩ := served_of_sound sound_start (0 : BitVec 96)
  obtain ⟨u, done', step'⟩ := tick_served (e := visit) rfl (.single step) (0 : BitVec 96)
  exact ⟨t, u, done, done', step'⟩

/-- What `start` saves in PM_seg is there when `RM_return` reads it. -/
theorem controllers_come_back {m₀ m₁ m₂ : Machine} (ds : m₀.seg .ds = paragraph e.segments.pm)
    (masks : m₀.port 0x21 = e.controllers.master.mask ∧ m₀.port 0xA1 = e.controllers.slave.mask)
    (done : run (setInterrupts e.entries) m₀ = some m₁)
    (same : ∀ x, e.Guarded 0x100 x → e.machine.mem x = m₁.mem x) (reached : e.Reachable s)
    (ds' : m₂.seg .ds = paragraph e.segments.pm) (mem : m₂.mem = s.point.machine.mem) :
    ∃ sent t sent', m₁.sent = m₀.sent ++ sent ∧ e.controllers.outs sent = e.start.controllers ∧
      run resetControllers m₂ = some t ∧ t.sent = m₂.sent ++ sent' ∧
        s.controllers.outs sent' =
          { e.controllers with master := { e.controllers.master with base := 8 } } := by
  have sound := sound_of_reachable reached
  have ready : e.controllers.master.expects = .mask ∧ e.controllers.slave.expects = .mask :=
    ⟨e.idle.1.1, e.idle.2.1⟩
  obtain ⟨m, ran, set⟩ := total_setInterrupts e.entries m₀ ⟨ds, rfl, rfl, rfl⟩
  cases Option.some.inj (ran.symm.trans done)
  obtain ⟨t, back, given⟩ := total_resetControllers m₂ ⟨ds', rfl, rfl, rfl⟩
  obtain ⟨first, second⟩ := masks_prepared e.segments e.entries m₀.port m₀.mem
  have kept (offset : Nat) (low : 0x100 ≤ offset) (high : offset + 1 ≤ escape.toNat) :
      m₂.mem (e.base + offset) = m₁.mem (e.base + offset) := by
    rw [mem, pm_kept sound low high]
    exact same _ (Or.inr ⟨by omega, by omega⟩)
  have saved : m₂.mem (e.segments.linear master) = e.controllers.master.mask := by
    rw [← masks.1, ← first, ← set.mem]
    exact kept 346 (by decide) (by decide)
  have saved' : m₂.mem (e.segments.linear slave) = e.controllers.slave.mask := by
    rw [← masks.2, ← second, ← set.mem]
    exact kept 347 (by decide) (by decide)
  rw [saved, saved', List.append_assoc, List.append_assoc] at given
  refine ⟨_, t, _, set.sent.trans ?_, outs_setInterrupts e.controllers ready, back, given.sent, ?_⟩
  · rw [List.append_assoc, List.append_assoc, ← List.append_assoc (initialised 0x20)]
  · rw [sound.controllers, ← List.append_assoc]
    exact outs_resetControllers e.controllers ready _ _

theorem controllers_come_back_ticked : ∃ t u,
    run (newInt08 .ds) (visit.start.point.machine.pushed (0 : BitVec 96)) = some t ∧
    run resetControllers (realMode (visit.board.settle (iretd t)).mem) = some u ∧
      visit.start.controllers.outs u.sent = visit.controllers := by
  have entered : Wired visit.segments (fun _ => 0) (realMode fun _ => 0).port []
    (realMode fun _ => 0) := ⟨rfl, rfl, rfl, rfl⟩
  obtain ⟨m₁, done, set⟩ := total_setInterrupts visit.entries _ entered
  have same : visit.machine.mem = m₁.mem := set.mem.symm
  have masks : (realMode fun _ => 0).port 0x21 = visit.controllers.master.mask ∧
      (realMode fun _ => 0).port 0xA1 = visit.controllers.slave.mask := ⟨rfl, rfl⟩
  obtain ⟨t, ticked, step⟩ := served_of_sound sound_start (0 : BitVec 96)
  have ds : (realMode (visit.board.settle (iretd t)).mem).seg .ds =
      paragraph visit.segments.pm := rfl
  obtain ⟨_, u, sent, -, -, back, given, final⟩ :=
    controllers_come_back rfl masks done (fun x _ => congrFun same x) (.single step) ds rfl
  have all : u.sent = sent := given
  exact ⟨t, u, ticked, back, all ▸ final⟩

end Excursion

end OsUnix.ProtectedMode
