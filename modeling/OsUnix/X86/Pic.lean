import OsUnix.X86.Machine

/-!
# The interrupt controllers

Two 8259A with the slave behind line 2 of the master, as far as they are initialised, masked and
told the end of an interrupt. Priorities are fixed, and an interrupt is ended by a command.
-/

namespace OsUnix.X86

inductive Pic.Expects
  | mask
  | vector (single mode : Bool)
  | cascade (mode : Bool)
  | mode
  deriving DecidableEq, Repr

structure Pic where
  expects : Pic.Expects
  base : BitVec 8
  mask : BitVec 8
  inService : BitVec 8
  deriving DecidableEq, Repr

namespace Pic

/-- A set bit 4 begins the initialisation, which clears the mask. Otherwise bit 3 is clear in the
command that ends an interrupt, bit 5 is set, and bit 6 says that the line is named. -/
def command (c : Pic) (v : BitVec 8) : Pic :=
  if v.getLsbD 4 then { c with mask := 0, expects := .vector (v.getLsbD 1) (v.getLsbD 0) }
  else if v.getLsbD 3 || !v.getLsbD 5 then c
  else if v.getLsbD 6 then { c with inService := c.inService &&& ~~~(1#8 <<< (v &&& 7)) }
  else { c with inService := c.inService &&& (c.inService - 1) }

def afterVector (single mode : Bool) : Expects :=
  if single then if mode then .mode else .mask else .cascade mode

def data (c : Pic) (v : BitVec 8) : Pic :=
  match c.expects with
  | .mask => { c with mask := v }
  | .vector single mode => { c with base := v &&& 0xF8, expects := afterVector single mode }
  | .cascade mode => { c with expects := if mode then .mode else .mask }
  | .mode => { c with expects := .mask }

/-- A request goes through when its line is not masked and neither it nor one before is served. -/
def accepts (c : Pic) (line : Fin 8) : Bool :=
  c.expects == .mask && !c.mask.getLsbD line && c.inService.extractLsb' 0 (line + 1) == 0

def acknowledge (c : Pic) (line : Fin 8) : Pic :=
  { c with inService := c.inService ||| 1#8 <<< (line : Nat) }

def vector (c : Pic) (line : Fin 8) : BitVec 8 := c.base + BitVec.ofNat 8 line

def Idle (c : Pic) : Prop := c.expects = .mask ∧ c.inService = 0

theorem accepts_of_idle {c : Pic} (idle : c.Idle) (line : Fin 8) :
    c.accepts line = !c.mask.getLsbD line := by
  simp [accepts, idle.1, idle.2]

theorem command_acknowledge {c : Pic} (idle : c.Idle) (line : Fin 8) :
    (c.acknowledge line).command 0x20 = c := by
  have cleared : ∀ line : Fin 8,
      (0 ||| 1#8 <<< (line : Nat)) &&& ((0 ||| 1#8 <<< (line : Nat)) - 1) = 0 := by decide
  obtain ⟨expects, base, mask, inService⟩ := c
  obtain ⟨-, rfl⟩ := idle
  exact congrArg (fun v => (⟨expects, base, mask, v⟩ : Pic)) (cleared line)

end Pic

structure Controllers where
  master : Pic
  slave : Pic
  deriving DecidableEq, Repr

namespace Controllers

def out (c : Controllers) (sent : BitVec 16 × BitVec 8) : Controllers :=
  match sent with
  | (0x20, v) => { c with master := c.master.command v }
  | (0x21, v) => { c with master := c.master.data v }
  | (0xA0, v) => { c with slave := c.slave.command v }
  | (0xA1, v) => { c with slave := c.slave.data v }
  | _ => c

def outs (c : Controllers) (sent : List (BitVec 16 × BitVec 8)) : Controllers := sent.foldl out c

theorem outs_append (c : Controllers) (sent sent' : List (BitVec 16 × BitVec 8)) :
    c.outs (sent ++ sent') = (c.outs sent).outs sent' := List.foldl_append

abbrev Request := Fin 8 ⊕ Fin 8

def interrupt (c : Controllers) : Request → Option (Controllers × BitVec 8)
  | .inl line =>
      if line ≠ 2 ∧ c.master.accepts line then
        some ({ c with master := c.master.acknowledge line }, c.master.vector line)
      else none
  | .inr line =>
      if c.slave.accepts line ∧ c.master.accepts 2 then
        some (⟨c.master.acknowledge 2, c.slave.acknowledge line⟩, c.slave.vector line)
      else none

end Controllers

def Steers (effect : Controllers → Controllers) (f : Instr) : Prop :=
  ∀ s t, f s = some t → ∃ sent, t.sent = s.sent ++ sent ∧ ∀ c, c.outs sent = effect c

def Operand.Silent (o : Operand w) : Prop := ∀ v m t, o.set v m = some t → t.sent = m.sent

section rules

variable {effect effect' : Controllers → Controllers}

theorem silent_r32 (r : Reg) : (r32 r).Silent := by
  rintro v m t ⟨⟩
  rfl

theorem silent_r16 (r : Reg) : (r16 r).Silent := by
  rintro v m t ⟨⟩
  rfl

theorem silent_low8 (r : Reg) : (low8 r).Silent := by
  rintro v m t ⟨⟩
  rfl

theorem silent_high8 (r : Reg) : (high8 r).Silent := by
  rintro v m t ⟨⟩
  rfl

theorem sent_store {m : Machine} {v : BitVec w} (stored : m.store s offset v = some t) :
    t.sent = m.sent := by
  obtain ⟨a, -, made⟩ := Option.bind_eq_some_iff.mp stored
  cases Option.some.inj made
  rfl

theorem silent_memory (w : Nat) (s : SegReg) (offset : Machine → BitVec 32) :
    (memory w s offset).Silent := fun _ _ _ => sent_store

theorem Steers.of_silent (silent : ∀ {s t}, f s = some t → t.sent = s.sent) : Steers id f :=
  fun s _ done => ⟨[], (silent done).trans s.sent.append_nil.symm, fun _ => rfl⟩

theorem Steers.nil : Steers id (run []) := by
  apply Steers.of_silent
  rintro s t ⟨⟩
  rfl

theorem Steers.cons (first : Steers effect instr) (rest : Steers effect' (run block)) :
    Steers (effect' ∘ effect) (run (instr :: block)) := by
  intro s t done
  obtain ⟨u, head, tail⟩ := Option.bind_eq_some_iff.mp done
  obtain ⟨sent, same, before⟩ := first s u head
  obtain ⟨sent', same', after⟩ := rest u t tail
  refine ⟨sent ++ sent', ?_, fun c => ?_⟩
  · rw [same', same, List.append_assoc]
  · rw [Controllers.outs_append, before, after]
    rfl

theorem Steers.append (first : Steers effect (run block)) (second : Steers effect' (run block')) :
    Steers (effect' ∘ effect) (run (block ++ block')) := by
  intro s t done
  rw [run_append] at done
  exact Steers.cons first second s t done

theorem Steers.mov {d : Operand w} (silent : d.Silent) (o : Operand w) : Steers id (mov d o) := by
  apply Steers.of_silent
  intro s t done
  obtain ⟨v, -, stored⟩ := Option.bind_eq_some_iff.mp done
  exact silent _ s t stored

theorem Steers.update {d : Operand w} (silent : d.Silent) (f) (o : Operand w) :
    Steers id (update f d o) := by
  apply Steers.of_silent
  intro s t done
  obtain ⟨u, -, done⟩ := Option.bind_eq_some_iff.mp done
  obtain ⟨v, -, stored⟩ := Option.bind_eq_some_iff.mp done
  exact silent _ s t stored

theorem Steers.push (o : Operand w) : Steers id (push o) := by
  apply Steers.of_silent
  intro s t done
  obtain ⟨v, -, stored⟩ := Option.bind_eq_some_iff.mp done
  exact sent_store (m := s.set .esp _) stored

theorem Steers.pop {o : Operand w} (silent : o.Silent) : Steers id (pop o) := by
  apply Steers.of_silent
  intro s t done
  obtain ⟨v, -, stored⟩ := Option.bind_eq_some_iff.mp done
  exact silent v (s.set .esp _) t stored

theorem Steers.input {d : Operand 8} (silent : d.Silent) (port : BitVec 16) :
    Steers id (input d port) :=
  Steers.of_silent fun done => silent _ _ _ done

theorem Steers.branch (yes : Steers effect (run yesBlock)) (no : Steers effect (run noBlock)) :
    Steers effect (branch condition yesBlock noBlock) := by
  intro s t done
  rw [X86.branch] at done
  split at done
  · exact yes s t done
  · exact no s t done

theorem Steers.rounds (body : Steers id (run block)) (n : Nat) : Steers id (rounds block n) := by
  induction n with
  | zero =>
      intro s t done
      cases done
  | succ n ih =>
      intro s t done
      obtain ⟨u, once, done⟩ := Option.bind_eq_some_iff.mp done
      obtain ⟨sent, same, before⟩ := body s u once
      dsimp only at done
      split at done
      · cases Option.some.inj done
        exact ⟨sent, same, before⟩
      · obtain ⟨sent', same', after⟩ := ih _ t done
        refine ⟨sent ++ sent', ?_, fun c => ?_⟩
        · rw [same', ← List.append_assoc, ← same]
          rfl
        · rw [Controllers.outs_append, before, after]
          rfl

theorem Steers.loop (body : Steers id (run block)) : Steers id (loop block) := Steers.rounds body _

theorem Steers.output_other (o : Operand 8)
    (other : ∀ (c : Controllers) (v : BitVec 8), c.out (port, v) = c) :
    Steers id (output port o) := by
  intro s t done
  obtain ⟨v, -, sent⟩ := Option.bind_eq_some_iff.mp done
  cases Option.some.inj sent
  exact ⟨[(port, v)], rfl, fun c => other c v⟩

theorem Steers.tell (r : Reg) (port : BitVec 16) (v : BitVec 8) :
    Steers (·.out (port, v)) (run [X86.mov (low8 r) (imm v), output port (low8 r)]) := by
  intro s t done
  cases Option.some.inj done
  refine ⟨[(port, v)], ?_, fun _ => rfl⟩
  have value : (((s.reg r).extractLsb' 8 24 ++ v : BitVec 32).extractLsb' 0 8 : BitVec 8) = v :=
    BitVec.extractLsb'_append_eq_right
  simp [Machine.set, value]

end rules

end OsUnix.X86
