import OsUnix.ProtectedMode.Relocation
import OsUnix.X86.Pic

/-!
# The gates and the interrupt controllers

The part of `start` behind the table registers, up to the masks, and the part of `RM_return` that
gives the controllers back.
-/

namespace OsUnix.ProtectedMode
open X86

-- The saved masks lie behind `idtr` and `idtr_real`.
def master : BitVec 32 := idtr + 6 + 6

def slave : BitVec 32 := master + 1

def gateAt (n : Nat) : BitVec 32 := idt + BitVec.ofNat 32 (8 * n)

/-- What the assembler has put into the code for the offsets of the handlers. -/
structure Entries where
  newDevExp : BitVec 32
  newInt08 : BitVec 32
  newInt09 : BitVec 32
  deriving DecidableEq, Repr

section code

def setGate (n : Nat) (entry : BitVec 32) : List Instr :=
  [mov eax (imm entry),
    mov (pmVariable 16 (gateAt n)) ax,
    shr eax 16,
    mov (pmVariable 16 (gateAt n + 6)) ax]

def keep (port : BitVec 16) (offset : BitVec 32) : List Instr :=
  [input al port, mov (pmVariable 8 offset) al]

def tell (port : BitVec 16) (v : BitVec 8) : List Instr := [mov al (imm v), output port al]

def resend (port : BitVec 16) (offset : BitVec 32) : List Instr :=
  [mov al (pmVariable 8 offset), output port al]

def initialise (base : BitVec 8) : List Instr :=
  tell 0x20 0x11 ++ tell 0x21 base ++ tell 0x21 4 ++ tell 0x21 1

def setInterrupts (entries : Entries) : List Instr :=
  setGate 13 entries.newDevExp ++ setGate 32 entries.newInt08 ++ setGate 33 entries.newInt09 ++
    keep 0x21 master ++ keep 0xA1 slave ++ initialise 0x20 ++ tell 0x21 0xFC ++ tell 0xA1 0xFF

def resetControllers : List Instr :=
  initialise 8 ++ resend 0x21 master ++ resend 0xA1 slave

end code

structure Gate where
  offset : BitVec 32
  selector : BitVec 16
  attr : BitVec 8
  deriving DecidableEq, Repr

def Segments.gate (segments : Segments) (mem : Nat → BitVec 8) (n : Nat) : Gate where
  offset := word mem 16 (segments.linear (gateAt n + 6)) ++ word mem 16 (segments.linear (gateAt n))
  selector := word mem 16 (segments.linear (gateAt n + 2))
  attr := word mem 8 (segments.linear (gateAt n + 5))

def Segments.withGate (segments : Segments) (n : Nat) (entry : BitVec 32)
    (mem : Nat → BitVec 8) : Nat → BitVec 8 :=
  write (write mem (segments.linear (gateAt n)) (entry.extractLsb' 0 16))
    (segments.linear (gateAt n + 6)) ((entry >>> 16).extractLsb' 0 16)

section gates

variable {segments : Segments} {mem mem' : Nat → BitVec 8} {n n' : Nat}

def Segments.gateLinear (segments : Segments) (n : Nat) : Nat := segments.linear idt + 8 * n

theorem linear_gateAt (few : n < 34) {k : Nat} (small : k < 8) :
    segments.linear (gateAt n + BitVec.ofNat 32 k) = segments.gateLinear n + k := by
  have place : idt.toNat = 62 := rfl
  rw [Segments.gateLinear, Segments.linear, Segments.linear, gateAt, BitVec.toNat_add,
    BitVec.toNat_add, place, BitVec.toNat_ofNat, BitVec.toNat_ofNat]
  omega

theorem linear_gateAt_zero (few : n < 34) : segments.linear (gateAt n) = segments.gateLinear n := by
  have place : segments.linear (gateAt n + BitVec.ofNat 32 0) = segments.gateLinear n + 0 :=
    linear_gateAt few (by decide)
  rwa [BitVec.add_zero] at place

theorem gate_eq (few : n < 34) : segments.gate mem n =
    ⟨word mem 16 (segments.gateLinear n + 6) ++ word mem 16 (segments.gateLinear n),
      word mem 16 (segments.gateLinear n + 2), word mem 8 (segments.gateLinear n + 5)⟩ := by
  have six : segments.linear (gateAt n + 6) = _ := linear_gateAt few (show 6 < 8 by decide)
  have two : segments.linear (gateAt n + 2) = _ := linear_gateAt few (show 2 < 8 by decide)
  have five : segments.linear (gateAt n + 5) = _ := linear_gateAt few (show 5 < 8 by decide)
  rw [Segments.gate, linear_gateAt_zero few, two, five, six]

theorem withGate_eq (few : n < 34) (entry : BitVec 32) : segments.withGate n entry mem =
    write (write mem (segments.gateLinear n) (entry.extractLsb' 0 16))
      (segments.gateLinear n + 6) ((entry >>> 16).extractLsb' 0 16) := by
  have six : segments.linear (gateAt n + 6) = _ := linear_gateAt few (show 6 < 8 by decide)
  rw [Segments.withGate, linear_gateAt_zero few, six]

theorem halves (v : BitVec 32) :
    (v >>> 16).extractLsb' 0 16 ++ v.extractLsb' 0 16 = v := by
  apply BitVec.eq_of_toNat_eq
  rw [toNat_append_eq]
  simp [Nat.shiftRight_eq_div_pow]
  omega

theorem gate_congr (few : n < 34) (same : ∀ x, segments.gateLinear n ≤ x →
    x < segments.gateLinear n + 8 → mem' x = mem x) :
    segments.gate mem' n = segments.gate mem n := by
  have field {w a : Nat} (low : segments.gateLinear n ≤ a)
      (high : a + w / 8 ≤ segments.gateLinear n + 8) : word mem' w a = word mem w a :=
    word_congr fun x above below => same x (by omega) (by omega)
  rw [gate_eq few, gate_eq few, field (by omega) (by omega), field (by omega) (by omega),
    field (by omega) (by omega), field (by omega) (by omega)]

theorem gate_self (few : n < 34) (entry : BitVec 32) :
    segments.gate (segments.withGate n entry mem) n =
      { segments.gate mem n with offset := entry } := by
  rw [gate_eq few, gate_eq few, withGate_eq few, word_write _ _ _ rfl,
    word_apart (by omega), word_write _ _ _ rfl, halves, word_apart (by omega),
    word_apart (by omega), word_apart (by omega), word_apart (by omega)]

theorem gate_other (few : n < 34) (few' : n' < 34) (other : n' ≠ n) (entry : BitVec 32) :
    segments.gate (segments.withGate n entry mem) n' = segments.gate mem n' := by
  apply gate_congr few'
  intro x low high
  rw [withGate_eq few]
  simp only [Segments.gateLinear] at low high ⊢
  rw [write_outside (by omega), write_outside (by omega)]

end gates

structure Wired (segments : Segments) (mem : Nat → BitVec 8) (port : BitVec 16 → BitVec 8)
    (sent : List (BitVec 16 × BitVec 8)) (m : Machine) : Prop where
  ds : m.seg .ds = paragraph segments.pm
  mem : m.mem = mem
  port : m.port = port
  sent : m.sent = sent

section rules

variable {segments : Segments} {mem : Nat → BitVec 8} {port : BitVec 16 → BitVec 8}
  {sent : List (BitVec 16 × BitVec 8)} {m : Machine} {n : Nat}

theorem Wired.set (wired : Wired segments mem port sent m) (v : BitVec 32) :
    Wired segments mem port sent (m.set .eax v) :=
  ⟨wired.ds, wired.mem, wired.port, wired.sent⟩

theorem Wired.store (wired : Wired segments mem port sent m) {offset : BitVec 32} {o : Operand w}
    (got : o.get m = some x) (fits : offset.toNat + w / 8 ≤ 0x10000) :
    mov (pmVariable w offset) o m = some (m.put (segments.linear offset) x) ∧
      Wired segments (write mem (segments.linear offset) x) port sent
        (m.put (segments.linear offset) x) := by
  have limit : (m.seg .ds).limit + 1 = 0x10000 := by
    rw [wired.ds]
    rfl
  have base : (m.seg .ds).base + offset.toNat = segments.linear offset := by
    rw [wired.ds]
    rfl
  refine ⟨?_, wired.ds, congrArg (write · (segments.linear offset) x) wired.mem, wired.port,
    wired.sent⟩
  rw [← base]
  exact mov_store (fun _ => offset) got (by rw [limit]; exact fits)

theorem Wired.load (wired : Wired segments mem port sent m) {offset : BitVec 32}
    (fits : offset.toNat + w / 8 ≤ 0x10000) :
    (pmVariable w offset).get m = some (word mem w (segments.linear offset)) := by
  have loaded : m.load .ds offset w = _ := Machine.load_eq (by rw [wired.ds]; exact fits)
  rw [wired.ds, wired.mem] at loaded
  exact loaded

theorem total_setGate (few : n < 34) (entry : BitVec 32) :
    Total (Wired segments mem port sent) (run (setGate n entry))
      (Wired segments (segments.withGate n entry mem) port sent) := by
  intro m wired
  have zero : (gateAt n).toNat = 62 + 8 * n := by
    have place : idt.toNat = 62 := rfl
    rw [gateAt, BitVec.toNat_add, place, BitVec.toNat_ofNat]
    omega
  have six : (gateAt n + 6).toNat = 62 + 8 * n + 6 := by
    have byte : (6 : BitVec 32).toNat = 6 := rfl
    rw [BitVec.toNat_add, zero, byte]
    omega
  have low : ax.get (m.set .eax entry) = some (entry.extractLsb' 0 16) :=
    congrArg (fun v : BitVec 32 => some (v.extractLsb' 0 16)) (m.set_self .eax entry)
  obtain ⟨first, wired⟩ := (wired.set entry).store low (by rw [zero]; omega)
  have shifted : shr eax 16 ((m.set .eax entry).put (segments.linear (gateAt n))
      (entry.extractLsb' 0 16)) = some (((m.set .eax entry).put (segments.linear (gateAt n))
        (entry.extractLsb' 0 16)).set .eax (entry >>> 16)) :=
    congrArg (fun v : BitVec 32 => some (Machine.set _ .eax (v >>> 16))) (m.set_self .eax entry)
  have high : ax.get (((m.set .eax entry).put (segments.linear (gateAt n))
      (entry.extractLsb' 0 16)).set .eax (entry >>> 16)) = some ((entry >>> 16).extractLsb' 0 16) :=
    congrArg (fun v : BitVec 32 => some (v.extractLsb' 0 16)) (Machine.set_self _ .eax _)
  obtain ⟨second, wired⟩ := (wired.set (entry >>> 16)).store high (by rw [six]; omega)
  exact ⟨_, run_step rfl (run_step first (run_step shifted (run_step second rfl))), wired⟩

theorem total_keep {offset : BitVec 32} (p : BitVec 16) (fits : offset.toNat + 1 ≤ 0x10000) :
    Total (Wired segments mem port sent) (run (keep p offset))
      (Wired segments (write mem (segments.linear offset) (port p)) port sent) := by
  intro m wired
  have got : al.get (m.set .eax ((m.reg .eax).extractLsb' 8 24 ++ m.port p)) =
      some (port p) := by
    rw [wired.port]
    exact congrArg some BitVec.extractLsb'_append_eq_right
  obtain ⟨stored, wired⟩ := (wired.set ((m.reg .eax).extractLsb' 8 24 ++ m.port p)).store got fits
  exact ⟨_, run_step rfl (run_step stored rfl), wired⟩

theorem total_send {o : Operand 8} (p : BitVec 16)
    (got : ∀ m, Wired segments mem port sent m → o.get m = some v) :
    Total (Wired segments mem port sent) (run [mov al o, output p al])
      (Wired segments mem port (sent ++ [(p, v)])) := by
  intro m wired
  have loaded : mov al o m = some (m.set .eax ((m.reg .eax).extractLsb' 8 24 ++ v)) := by
    rw [mov, got m wired]
    rfl
  have byte : al.get (m.set .eax ((m.reg .eax).extractLsb' 8 24 ++ v)) = some v :=
    congrArg some BitVec.extractLsb'_append_eq_right
  have out : output p al (m.set .eax ((m.reg .eax).extractLsb' 8 24 ++ v)) =
      some { m.set .eax ((m.reg .eax).extractLsb' 8 24 ++ v) with sent := m.sent ++ [(p, v)] } := by
    rw [output, byte]
    rfl
  exact ⟨_, run_step loaded (run_step out rfl), wired.ds, wired.mem, wired.port,
    congrArg (· ++ [(p, v)]) wired.sent⟩

theorem total_tell (p : BitVec 16) (v : BitVec 8) : Total (Wired segments mem port sent)
    (run (tell p v)) (Wired segments mem port (sent ++ [(p, v)])) :=
  total_send p fun _ _ => rfl

theorem total_resend {offset : BitVec 32} (p : BitVec 16) (fits : offset.toNat + 1 ≤ 0x10000) :
    Total (Wired segments mem port sent) (run (resend p offset))
      (Wired segments mem port (sent ++ [(p, mem (segments.linear offset))])) :=
  total_send p fun _ wired => (wired.load fits).trans (congrArg some (word_byte mem _))

def initialised (base : BitVec 8) : List (BitVec 16 × BitVec 8) :=
  [(0x20, 0x11), (0x21, base), (0x21, 4), (0x21, 1)]

theorem total_initialise (base : BitVec 8) : Total (Wired segments mem port sent)
    (run (initialise base)) (Wired segments mem port (sent ++ initialised base)) := by
  have begin : Total (Wired segments mem port sent) _ _ := total_tell 0x20 0x11
  have all := ((begin.append (total_tell 0x21 base)).append (total_tell 0x21 4)).append
    (total_tell 0x21 1)
  simpa [initialise, initialised] using all

def Segments.prepared (segments : Segments) (entries : Entries) (port : BitVec 16 → BitVec 8)
    (mem : Nat → BitVec 8) : Nat → BitVec 8 :=
  write (write (segments.withGate 33 entries.newInt09 (segments.withGate 32 entries.newInt08
    (segments.withGate 13 entries.newDevExp mem))) (segments.linear master) (port 0x21))
      (segments.linear slave) (port 0xA1)

theorem gate_prepared (segments : Segments) (entries : Entries) (port : BitVec 16 → BitVec 8)
    (mem : Nat → BitVec 8) (few : n < 34) : segments.gate (segments.prepared entries port mem) n =
      segments.gate (segments.withGate 33 entries.newInt09 (segments.withGate 32 entries.newInt08
        (segments.withGate 13 entries.newDevExp mem))) n := by
  apply gate_congr few
  intro x low high
  have place : segments.linear idt = 16 * segments.pm.toNat + 62 := rfl
  have first : segments.linear master = 16 * segments.pm.toNat + 346 := rfl
  have second : segments.linear slave = 16 * segments.pm.toNat + 347 := rfl
  rw [Segments.gateLinear, place] at low high
  rw [Segments.prepared, write_outside (by omega), write_outside (by omega)]

theorem handlers_prepared (segments : Segments) (entries : Entries) (port : BitVec 16 → BitVec 8)
    (mem : Nat → BitVec 8) :
    (segments.gate (segments.prepared entries port mem) 32).offset = entries.newInt08 ∧
      (segments.gate (segments.prepared entries port mem) 33).offset = entries.newInt09 := by
  rw [gate_prepared _ _ _ _ (by decide), gate_prepared _ _ _ _ (by decide),
    gate_other (by decide) (by decide) (by decide), gate_self (by decide), gate_self (by decide)]
  exact ⟨rfl, rfl⟩

theorem masks_prepared (segments : Segments) (entries : Entries) (port : BitVec 16 → BitVec 8)
    (mem : Nat → BitVec 8) :
    segments.prepared entries port mem (segments.linear master) = port 0x21 ∧
      segments.prepared entries port mem (segments.linear slave) = port 0xA1 := by
  have first : segments.linear master = 16 * segments.pm.toNat + 346 := rfl
  have second : segments.linear slave = 16 * segments.pm.toNat + 347 := rfl
  constructor
  · rw [Segments.prepared, write_outside (by omega)]
    exact (word_byte _ _).symm.trans (word_write _ _ _ rfl)
  · exact (word_byte _ _).symm.trans (word_write _ _ _ rfl)

theorem total_setInterrupts (entries : Entries) :
    Total (Wired segments mem port sent) (run (setInterrupts entries))
      (Wired segments (segments.prepared entries port mem) port
        (sent ++ initialised 0x20 ++ [(0x21, 0xFC)] ++ [(0xA1, 0xFF)])) :=
  (((((((total_setGate (by decide) _).append (total_setGate (by decide) _)).append
    (total_setGate (by decide) _)).append (total_keep _ (by decide))).append
      (total_keep _ (by decide))).append (total_initialise _)).append (total_tell _ _)).append
        (total_tell _ _)

theorem total_resetControllers : Total (Wired segments mem port sent) (run resetControllers)
    (Wired segments mem port (sent ++ initialised 8 ++ [(0x21, mem (segments.linear master))] ++
      [(0xA1, mem (segments.linear slave))])) :=
  ((total_initialise _).append (total_resend _ (by decide))).append (total_resend _ (by decide))

end rules

section controllers

variable (c : Controllers)

def takenOver (c : Controllers) : Controllers :=
  ⟨{ c.master with base := 0x20, mask := 0xFC }, { c.slave with mask := 0xFF }⟩

theorem outs_setInterrupts (ready : c.master.expects = .mask ∧ c.slave.expects = .mask) :
    c.outs (initialised 0x20 ++ [(0x21, 0xFC)] ++ [(0xA1, 0xFF)]) = takenOver c := by
  obtain ⟨⟨_, _, _, _⟩, ⟨_, _, _, _⟩⟩ := c
  obtain ⟨rfl, rfl⟩ := ready
  rfl

theorem outs_resetControllers (ready : c.master.expects = .mask ∧ c.slave.expects = .mask)
    (masks masks' : BitVec 8) :
    (takenOver c).outs (initialised 8 ++ [(0x21, masks)] ++ [(0xA1, masks')]) =
      ⟨{ c.master with base := 8, mask := masks }, { c.slave with mask := masks' }⟩ := by
  obtain ⟨⟨_, _, _, _⟩, ⟨_, _, _, _⟩⟩ := c
  obtain ⟨rfl, rfl⟩ := ready
  rfl

variable {c}

theorem idle_takenOver (idle : c.master.Idle) : (takenOver c).master.Idle := idle

theorem interrupt_takenOver {c c' : Controllers} (idle : c.master.Idle)
    (accepted : (takenOver c).interrupt request = some (c', vector)) :
    (request = .inl 0 ∧ vector = 32 ∨ request = .inl 1 ∧ vector = 33) ∧
      c'.out (0x20, 0x20) = takenOver c := by
  cases request with
  | inl line =>
    have unmasked : ∀ line : Fin 8, (!(0xFC : BitVec 8).getLsbD line) = true →
      line = 0 ∨ line = 1 := by decide
    obtain ⟨⟨-, allowed⟩, got⟩ := Option.ite_none_right_eq_some.mp accepted
    cases Option.some.inj got
    rw [Pic.accepts_of_idle (idle_takenOver idle)] at allowed
    refine ⟨?_, congrArg (Controllers.mk · (takenOver c).slave)
      (Pic.command_acknowledge (idle_takenOver idle) line)⟩
    rcases unmasked line allowed with rfl | rfl
    · exact Or.inl ⟨rfl, rfl⟩
    · exact Or.inr ⟨rfl, rfl⟩
  | inr line =>
    have masked : ∀ line : Fin 8, (0xFF : BitVec 8).getLsbD line = true := by decide
    obtain ⟨⟨allowed, -⟩, -⟩ := Option.ite_none_right_eq_some.mp accepted
    have slave : (takenOver c).slave.mask.getLsbD line = true := masked line
    rw [Pic.accepts, slave] at allowed
    simp at allowed

end controllers

end OsUnix.ProtectedMode
