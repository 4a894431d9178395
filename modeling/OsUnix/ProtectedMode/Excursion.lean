import Mathlib.Tactic.IntervalCases
import OsUnix.ProtectedMode.Handling

/-!
# Protected mode with its interrupts

The stack lies on the tables. What stays of them, whenever the interrupts come. `ASSUME` has the
assembler address the variables through CS. Its access byte 98h is that of a code segment that cannot
be read, so that the first access of a handler faults, which `Machine.address` leaves out. What the
handlers do is therefore stated for DS.
-/

namespace OsUnix.ProtectedMode
open X86

/-! ## The code between the interrupts -/

section code

variable (gdt : BitVec 16 → Option Segment) (data : SegReg) (back : BitVec 32)

def shifted (n : Nat) : Line → Line
  | .plain instr => .plain instr
  | .jump condition target => .jump condition (target + n)
  | .loop target => .loop (target + n)

def number1 : Nat := 28

def printDigit : Nat := 24

def showMegabytes : List Line :=
  [.plain (X86.xor edi edi),
    .plain (mov edi (imm 20)),
    .plain (push ecx),
    .plain (push dx),
    .plain (mov ecx (imm 8)),
    .plain (X86.add edi (imm 172)),
    -- prcyc1:
    .plain (mov dl al),
    .plain (X86.and dl (imm 0x0F)),
    .jump (fun m => some (dlLess 10 m)) number1,
    .plain (X86.add dl (imm (65 - 48 - 10))),
    -- number1:
    .plain (X86.add dl (imm 48)),
    .plain (mov dh (imm 0x46)),
    .plain (mov (memory 16 .es fun m => m.reg .edi) dx),
    .plain (ror eax 4),
    .plain (sub edi (imm 2)),
    .loop printDigit,
    .plain (pop dx),
    .plain (pop ecx)]

/-- `ret` to the line behind the call, whose address is `back`. From another address there is no
way on. -/
def ret : Instr := fun m => do
  let address ← m.load .ss (m.reg .esp) 32
  if address = back then return m.set .esp (m.reg .esp + 4) else none

def work : Nat := 37

def waits : Machine → Option Bool := fun m => do
  let v ← (variable8 data escape).get m
  return v &&& 1 == 0

def pmEntry : List Line :=
  [.plain (push (imm back))] ++ (computeMemory gdt).map (shifted 1) ++ showMegabytes ++
    [.plain (ret back), .jump (waits data) work]

end code

structure Excursion where
  segments : Segments
  size : Nat
  -- The register that the variables are reached through.
  data : SegReg
  board : Board
  entries : Entries
  back : BitVec 32
  machine : Machine
  -- The controllers as the BIOS has left them.
  controllers : Controllers
  low : 0x500 ≤ 16 * segments.pm.toNat
  high : 16 * segments.pm.toNat + size ≤ 0xA0000
  defined : outPosition.toNat + 4 ≤ size
  stack : machine.seg .ss = ⟨40, 16 * segments.pm.toNat, 0x100 - 1⟩
  video : machine.seg .es = ⟨48, 0xB8000, 0xF0F9F⟩
  ds : machine.seg .ds = ⟨32, 16 * segments.pm.toNat, size - 1⟩
  reached : data = .ds ∨ data = .cs ∧ machine.seg .cs = ⟨24, 16 * segments.pm.toNat, size - 1⟩
  esp : (machine.reg .esp).toNat = 0x100
  timer : (segments.gate machine.mem 32).offset = entries.newInt08
  keyboard : (segments.gate machine.mem 33).offset = entries.newInt09
  idle : controllers.master.Idle ∧ controllers.slave.Idle

namespace Excursion

variable (e : Excursion)

def base : Nat := 16 * e.segments.pm.toNat

def program : List Line := pmEntry (dataSegment e.base e.size) e.data e.back

def entry : Handler → BitVec 32
  | .newInt08 => e.entries.newInt08
  | .newInt09 => e.entries.newInt09

structure State where
  point : Point
  controllers : Controllers

def start : State := ⟨⟨0, e.machine⟩, takenOver e.controllers⟩

/-- The next line, or a request that the controllers let through: the processor pushes `frame` and
enters the handler in the gate, which keeps other interrupts off until `iretd`. -/
inductive Step : State → State → Prop
  | line : e.program[p.pc]? = some line → line.step p = some q →
      Step ⟨p, c⟩ ⟨⟨q.pc, e.board.settle q.machine⟩, c⟩
  | interrupt : c.interrupt request = some (c', vector) →
      e.entry handler = (e.segments.gate m.mem vector.toNat).offset →
      run (handler.code e.data) (m.pushed (w := 96) frame) = some t → t.sent = m.sent ++ sent →
      Step ⟨⟨pc, m⟩, c⟩ ⟨⟨pc, e.board.settle (iretd t)⟩, c'.outs sent⟩

def Reachable (s : State) : Prop := Relation.ReflTransGen e.Step e.start s

/-! ## Where the stack is at each line -/

structure Layout where
  depth : Nat
  -- The return address of the call is on the stack, and DS under it.
  called : Bool
  saved : Bool
  flat : Bool
  deriving DecidableEq

def layout (pc : Nat) : Layout :=
  if pc = 0 then ⟨0x100, false, false, false⟩
  else if pc = 1 then ⟨0xFC, true, false, false⟩
  else if pc < 4 then ⟨0xF8, true, true, false⟩
  else if pc < 14 then ⟨0xF8, true, true, true⟩
  else if pc < 21 then ⟨0xFC, true, false, false⟩
  else if pc = 21 then ⟨0xF8, true, false, false⟩
  else if pc < 35 then ⟨0xF6, true, false, false⟩
  else if pc = 35 then ⟨0xF8, true, false, false⟩
  else if pc = 36 then ⟨0xFC, true, false, false⟩
  else ⟨0x100, false, false, false⟩

theorem layout_bounds (pc : Nat) : 0xF6 ≤ (layout pc).depth ∧ (layout pc).depth ≤ 0x100 ∧
    ((layout pc).called = true → (layout pc).depth ≤ 0xFC) ∧
    ((layout pc).saved = true → (layout pc).depth ≤ 0xF8) := by
  unfold layout
  split_ifs <;> simp

def Holding (m : Machine) : Nat → Prop
  | 3 => (m.reg .eax).extractLsb' 0 16 = selFlatDS
  | 5 | 6 => m.reg .ebx = 0x100001
  | 7 | 8 | 9 | 10 | 11 => 0x100001 ≤ (m.reg .ebx).toNat ∧
      (m.reg .ebx).toNat + (m.reg .ecx).toNat = 0xFFFFFFFF ∧ m.reg .ecx ≠ 0
  | 12 => 0x100001 ≤ (m.reg .ebx).toNat ∧
      (m.reg .ebx).toNat + (m.reg .ecx).toNat = 0x100000000 ∧ m.reg .ecx ≠ 0
  | _ => True

/-- The bytes of PM_seg before the variables, but for the part of the stack that is in use with ESP
at `depth`. -/
def Guarded (depth x : Nat) : Prop :=
  e.base ≤ x ∧ x < e.base + 0xD6 ∨ e.base + depth ≤ x ∧ x < e.base + escape.toNat

structure Placed (pc : Nat) (m : Machine) : Prop where
  bound : pc ≤ 38
  cs : m.seg .cs = e.machine.seg .cs
  ss : m.seg .ss = ⟨40, e.base, 0x100 - 1⟩
  es : m.seg .es = ⟨48, 0xB8000, 0xF0F9F⟩
  ds : m.seg .ds = if (layout pc).flat then ⟨8, 0, 0xFFFFFFFF⟩ else ⟨32, e.base, e.size - 1⟩
  esp : (m.reg .esp).toNat = (layout pc).depth
  tables : ∀ x, e.Guarded 0x100 x → m.mem x = e.machine.mem x
  back : (layout pc).called = true → word m.mem 32 (e.base + 0xFC) = e.back
  saved : (layout pc).saved = true → word m.mem 32 (e.base + 0xF8) = 32
  holding : Holding m pc

section lines

variable {e} {pc pc' : Nat} {m t : Machine}

theorem Guarded.mono (inside : e.Guarded depth x) (deeper : depth' ≤ depth) :
    e.Guarded depth' x := by
  rcases inside with low | high
  · exact Or.inl low
  · exact Or.inr ⟨by omega, high.2⟩

theorem Placed.move (placed : e.Placed pc m) (bound : pc' ≤ 38) (same : layout pc' = layout pc)
    (seg : t.seg = m.seg) (esp : t.reg .esp = m.reg .esp)
    (mem : ∀ x, e.Guarded (layout pc).depth x → t.mem x = m.mem x) (holding : Holding t pc') :
    e.Placed pc' t := by
  obtain ⟨-, top, called, saved⟩ := layout_bounds pc
  have place : escape.toNat = 348 := rfl
  refine ⟨bound, ?_, ?_, ?_, ?_, ?_, ?_, ?_, ?_, holding⟩
  · rw [seg, placed.cs]
  · rw [seg, placed.ss]
  · rw [seg, placed.es]
  · rw [seg, placed.ds, same]
  · rw [esp, placed.esp, same]
  · intro x inside
    rw [mem x (inside.mono top), placed.tables x inside]
  · intro call
    rw [same] at call
    rw [← placed.back call]
    exact word_congr fun x low high => mem x (Or.inr ⟨by have := called call; omega, by omega⟩)
  · intro save
    rw [same] at save
    rw [← placed.saved save]
    exact word_congr fun x low high => mem x (Or.inr ⟨by have := saved save; omega, by omega⟩)

theorem Placed.settle (placed : e.Placed pc m) : e.Placed pc (e.board.settle m) := by
  refine placed.move (t := e.board.settle m) placed.bound rfl rfl rfl ?_ placed.holding
  intro x inside
  have high := e.high
  have least := e.board.least
  have place : escape.toNat = 348 := rfl
  have position : outPosition.toNat = 515 := rfl
  have defined := e.defined
  refine if_pos ?_
  simp only [Guarded, base] at inside
  omega

def Leads (e : Excursion) (pc : Nat) (line : Line) : Prop :=
  ∀ m q, e.Placed pc m → line.step ⟨pc, m⟩ = some q → e.Placed q.pc q.machine

def Calm (W : Finset Part) (f : Instr) : Prop := ∀ s t, f s = some t → Kept W s t ∧ t.mem = s.mem

theorem Calm.mov {d : Operand w} (writes : d.Writes P) (o : Operand w) : Calm P (mov d o) := by
  intro s t done
  obtain ⟨v, _, stored⟩ := Option.bind_eq_some_iff.mp done
  exact ⟨writes.kept (Finset.Subset.refl P) stored, (writes.touches stored).2⟩

theorem Calm.update {d : Operand w} (writes : d.Writes P) (f) (o : Operand w) :
    Calm P (update f d o) := by
  intro s t done
  obtain ⟨u, _, done⟩ := Option.bind_eq_some_iff.mp done
  obtain ⟨v, _, stored⟩ := Option.bind_eq_some_iff.mp done
  exact ⟨writes.kept (Finset.Subset.refl P) stored, (writes.touches stored).2⟩

theorem leads_plain {f : Instr}
    (leads : ∀ m t, e.Placed pc m → f m = some t → e.Placed (pc + 1) t) :
    e.Leads pc (.plain f) := by
  intro m q placed done
  obtain ⟨t, ran, next⟩ := Option.bind_eq_some_iff.mp done
  cases Option.some.inj next
  exact leads m t placed ran

theorem leads_calm {f : Instr} (calm : Calm W f) (bound : pc + 1 ≤ 38)
    (same : layout (pc + 1) = layout pc) (holding : ∀ m t, Kept W m t → f m = some t →
      Holding m pc → Holding t (pc + 1)) : e.Leads pc (.plain f) := by
  apply leads_plain
  intro m t placed done
  obtain ⟨kept, mem⟩ := calm m t done
  exact placed.move bound same kept.seg kept.esp (fun x _ => congrFun mem x)
    (holding m t kept done placed.holding)

theorem leads_jump (bound : target ≤ 38 ∧ pc + 1 ≤ 38)
    (same : layout target = layout pc ∧ layout (pc + 1) = layout pc)
    (holding : ∀ m, Holding m pc → Holding m target ∧ Holding m (pc + 1)) :
    e.Leads pc (.jump condition target) := by
  intro m q placed done
  obtain ⟨jumps, -, next⟩ := Option.bind_eq_some_iff.mp done
  cases Option.some.inj next
  obtain ⟨yes, no⟩ := holding m placed.holding
  cases jumps with
  | true => exact placed.move bound.1 same.1 rfl rfl (fun _ _ => rfl) yes
  | false => exact placed.move bound.2 same.2 rfl rfl (fun _ _ => rfl) no

theorem leads_loop (bound : target ≤ 38 ∧ pc + 1 ≤ 38)
    (same : layout target = layout pc ∧ layout (pc + 1) = layout pc)
    (holding : ∀ m : Machine, Holding m pc →
      (m.reg .ecx - 1 ≠ 0 → Holding (m.set .ecx (m.reg .ecx - 1)) target) ∧
        Holding (m.set .ecx (m.reg .ecx - 1)) (pc + 1)) : e.Leads pc (.loop target) := by
  intro m q placed done
  cases Option.some.inj done
  obtain ⟨again, last⟩ := holding m placed.holding
  have esp : (m.set .ecx (m.reg .ecx - 1)).reg .esp = m.reg .esp := m.set_other _ (by decide)
  by_cases zero : (m.set .ecx (m.reg .ecx - 1)).reg .ecx = 0
  · simp only [zero, if_true]
    exact placed.move bound.2 same.2 rfl esp (fun _ _ => rfl) last
  · simp only [zero, if_false]
    exact placed.move bound.1 same.1 rfl esp (fun _ _ => rfl) (again (by simpa using zero))

theorem Placed.reaches (placed : e.Placed pc m) :
    ((m.seg e.data).base = e.base ∧ (m.seg e.data).limit = e.size - 1) ∨
      ((m.seg e.data).base = 0 ∧ (m.seg e.data).limit = 0xFFFFFFFF) := by
  rcases e.reached with data | ⟨data, cs⟩
  · rw [data, placed.ds]
    split
    · exact Or.inr ⟨rfl, rfl⟩
    · exact Or.inl ⟨rfl, rfl⟩
  · rw [data, placed.cs, cs]
    exact Or.inl ⟨rfl, rfl⟩

theorem guarded_low (inside : e.Guarded depth x) (deep : 0xF6 ≤ depth) : x < 0xA0000 := by
  have high := e.high
  have place : escape.toNat = 348 := rfl
  have position : outPosition.toNat = 515 := rfl
  have defined := e.defined
  simp only [Guarded, base] at inside
  omega

theorem leads_store {o : Operand w} (bound : pc + 1 ≤ 38) (same : layout (pc + 1) = layout pc)
    (above : ∀ m, e.Placed pc m → 0xA0000 ≤ (m.seg r).base + (offset m).toNat)
    (holding : ∀ m t : Machine, t.reg = m.reg → Holding m pc → Holding t (pc + 1)) :
    e.Leads pc (.plain (mov (memory w r offset) o)) := by
  apply leads_plain
  intro m t placed done
  obtain ⟨v, -, -, rfl⟩ := mov_store_cases done
  have low := above m placed
  refine placed.move bound same rfl rfl (fun x inside => write_outside ?_)
    (holding m _ rfl placed.holding)
  have high := guarded_low inside (layout_bounds pc).1
  omega

theorem leads_tested {o : Operand 8} (bound : pc + 1 ≤ 38) (same : layout (pc + 1) = layout pc)
    (counts : ∀ m, Holding m pc → 0x100001 ≤ (m.reg .ebx).toNat)
    (holding : ∀ m t : Machine, t.reg = m.reg → Holding m pc → Holding t (pc + 1)) :
    e.Leads pc (.plain (mov tested o)) := by
  apply leads_store bound same ?_ holding
  intro m placed
  have high := counts m placed.holding
  omega

theorem leads_video {o : Operand w} (bound : pc + 1 ≤ 38) (same : layout (pc + 1) = layout pc)
    (holding : ∀ m t : Machine, t.reg = m.reg → Holding m pc → Holding t (pc + 1)) :
    e.Leads pc (.plain (mov (memory w .es offset) o)) := by
  apply leads_store bound same ?_ holding
  intro m placed
  have base : (m.seg .es).base = 0xB8000 := congrArg Segment.base placed.es
  omega

theorem leads_push {o : Operand w} {depth : Nat} (bound : pc + 1 ≤ 38) (size : w / 8 < 2 ^ 32)
    (whole : 8 * (w / 8) = w) (before : (layout pc).depth = depth + w / 8)
    (after : (layout (pc + 1)).depth = depth) (flat : (layout (pc + 1)).flat = (layout pc).flat)
    (free : ∀ m : Machine, Holding m (pc + 1))
    (back : (layout (pc + 1)).called = true → (layout pc).called = true ∧ depth + w / 8 ≤ 0xFC ∨
      depth = 0xFC ∧ w = 32 ∧ ∀ m, o.get m = some (e.back.setWidth w))
    (saved : (layout (pc + 1)).saved = true → (layout pc).saved = false ∧ depth = 0xF8 ∧ w = 32 ∧
      ∀ m, e.Placed pc m → o.get m = some ((32 : BitVec 32).setWidth w)) :
    e.Leads pc (.plain (push o)) := by
  apply leads_plain
  intro m t placed done
  obtain ⟨v, got, stored⟩ := Option.bind_eq_some_iff.mp done
  obtain ⟨-, rfl⟩ := store_cases stored
  have lowered : (m.reg .esp - BitVec.ofNat 32 (w / 8)).toNat = depth := by
    have below := (m.reg .esp).isLt
    rw [BitVec.toNat_sub, BitVec.toNat_ofNat, placed.esp]
    rw [placed.esp] at below
    omega
  have place : ((m.set .esp (m.reg .esp - BitVec.ofNat 32 (w / 8))).seg .ss).base +
      (m.reg .esp - BitVec.ofNat 32 (w / 8)).toNat = e.base + depth := by
    rw [lowered, Machine.set_seg, placed.ss]
  obtain ⟨deep, top, -, -⟩ := layout_bounds (pc + 1)
  have highest := (layout_bounds pc).2.1
  have number : escape.toNat = 348 := rfl
  rw [place]
  refine ⟨bound, placed.cs, placed.ss, placed.es, ?_, ?_, ?_, ?_, ?_, free _⟩
  · rw [flat]
    exact placed.ds
  · rw [after]
    exact (congrArg BitVec.toNat (m.set_self .esp _)).trans lowered
  · intro x inside
    refine (write_outside ?_).trans (placed.tables x inside)
    simp only [Guarded] at inside
    omega
  · intro call
    rcases back call with ⟨called, high⟩ | ⟨rfl, rfl, value⟩
    · rw [← placed.back called]
      exact word_apart (by omega)
    · cases Option.some.inj (got.symm.trans (value m))
      exact word_write _ _ _ whole
  · intro save
    obtain ⟨-, rfl, rfl, value⟩ := saved save
    cases Option.some.inj (got.symm.trans (value m placed))
    exact word_write _ _ _ whole

theorem leads_pop {o : Operand w} {depth : Nat} (writes : o.Writes P) (bound : pc + 1 ≤ 38)
    (before : (layout pc).depth = depth) (after : (layout (pc + 1)).depth = depth + w / 8)
    (flat : (layout (pc + 1)).flat = (layout pc).flat) (free : ∀ m : Machine, Holding m (pc + 1))
    (back : (layout (pc + 1)).called = true → (layout pc).called = true)
    (saved : (layout (pc + 1)).saved = false) : e.Leads pc (.plain (pop o)) := by
  apply leads_plain
  intro m t placed done
  obtain ⟨v, _, stored⟩ := Option.bind_eq_some_iff.mp done
  obtain ⟨r, x, other, set, -⟩ := writes v (m.set .esp (m.reg .esp + BitVec.ofNat 32 (w / 8)))
  cases Option.some.inj (stored.symm.trans set)
  have top := (layout_bounds (pc + 1)).2.1
  refine ⟨bound, placed.cs, placed.ss, placed.es, ?_, ?_, placed.tables,
    fun call => placed.back (back call), fun save => ?_, free _⟩
  · rw [flat]
    exact placed.ds
  · rw [Machine.set_other _ _ other.symm, Machine.set_self, BitVec.toNat_add, placed.esp,
      BitVec.toNat_ofNat, after, before]
    omega
  · rw [saved] at save
    cases save

theorem leads_ret : e.Leads 36 (.plain (ret e.back)) := by
  apply leads_plain
  intro m t placed done
  obtain ⟨address, -, done⟩ := Option.bind_eq_some_iff.mp done
  split at done
  · cases Option.some.inj done
    refine ⟨by decide, placed.cs, placed.ss, placed.es, placed.ds, ?_, placed.tables, nofun, nofun,
      trivial⟩
    have esp : (m.reg .esp).toNat = 0xFC := placed.esp
    rw [Machine.set_self, BitVec.toNat_add, esp]
    rfl
  · cases done

theorem leads_flat : e.Leads 3 (.plain (mov (selector (dataSegment e.base e.size) .ds 16) ax)) := by
  apply leads_plain
  intro m t placed done
  obtain ⟨segment, found, made⟩ := Option.bind_eq_some_iff.mp done
  have value : (m.reg .eax).extractLsb' 0 16 = selFlatDS := placed.holding
  rw [value] at found
  cases Option.some.inj found
  cases Option.some.inj made
  exact ⟨by decide, placed.cs, placed.ss, placed.es, rfl, placed.esp, placed.tables, placed.back,
    placed.saved, trivial⟩

theorem leads_restore :
    e.Leads 13 (.plain (pop (selector (dataSegment e.base e.size) .ds 32))) := by
  apply leads_plain
  intro m t placed done
  have esp : (m.reg .esp).toNat = 0xF8 := placed.esp
  have found : m.load .ss (m.reg .esp) 32 = some 32 := by
    have fits : 0xF8 + 32 / 8 ≤ 0x100 - 1 + 1 := by decide
    rw [Machine.load_eq (by rw [placed.ss, esp]; exact fits), placed.ss, esp]
    exact congrArg some (placed.saved rfl)
  obtain ⟨v, loaded, stored⟩ := Option.bind_eq_some_iff.mp done
  cases Option.some.inj (loaded.symm.trans found)
  cases Option.some.inj stored
  refine ⟨by decide, placed.cs, placed.ss, placed.es, rfl, ?_, placed.tables, placed.back, nofun,
    trivial⟩
  have raised : (m.reg .esp + BitVec.ofNat 32 (32 / 8)).toNat = 0xFC := by
    rw [BitVec.toNat_add, esp]
    rfl
  exact (congrArg BitVec.toNat (m.set_self .esp _)).trans raised

theorem leads_free {f : Instr} (calm : Calm W f) (bound : pc + 1 ≤ 38)
    (same : layout (pc + 1) = layout pc) (free : ∀ m : Machine, Holding m (pc + 1)) :
    e.Leads pc (.plain f) :=
  leads_calm calm bound same fun _ t _ _ _ => free t

theorem holding_of_regs (eax : t.reg .eax = m.reg .eax) (ebx : t.reg .ebx = m.reg .ebx)
    (ecx : t.reg .ecx = m.reg .ecx) (holding : Holding m pc) : Holding t pc := by
  unfold Holding at holding ⊢
  rwa [eax, ebx, ecx]

theorem counted_inc {b c : BitVec 32} (low : 0x100001 ≤ b.toNat)
    (sum : b.toNat + c.toNat = 0xFFFFFFFF) (more : c ≠ 0) :
    0x100001 ≤ (b + 1).toNat ∧ (b + 1).toNat + c.toNat = 0x100000000 := by
  have positive : 0 < c.toNat := Nat.pos_of_ne_zero fun zero => more (BitVec.eq_of_toNat_eq zero)
  bv_omega

theorem leads_computeMemory (few : k < 17) : e.Leads (k + 1)
    (shifted 1 ((computeMemory (dataSegment e.base e.size)).get ⟨k, few⟩)) := by
  interval_cases k
  · refine leads_push (by decide) (by decide) rfl rfl rfl rfl (fun _ => trivial)
      (fun _ => Or.inl ⟨rfl, by decide⟩) fun _ => ⟨rfl, rfl, rfl, fun m placed => ?_⟩
    have ds : m.seg .ds = ⟨32, e.base, e.size - 1⟩ := placed.ds
    exact congrArg (fun d : Segment => some (d.selector.setWidth 32)) ds
  · refine leads_calm (Calm.mov (writes_r16 (by decide)) _) (by decide) rfl fun m t _ done _ => ?_
    cases Option.some.inj done
    exact BitVec.extractLsb'_append_eq_right
  · exact leads_flat
  · refine leads_calm (Calm.mov saves_ebx.writes _) (by decide) rfl fun m t _ done _ => ?_
    cases Option.some.inj done
    exact m.set_self _ _
  · exact leads_calm (Calm.mov writes_dl _) (by decide) rfl fun m t kept _ start =>
      (kept.reg (by decide)).trans start
  · refine leads_calm (Calm.mov saves_ecx.writes _) (by decide) rfl fun m t _ done start => ?_
    cases Option.some.inj done
    have start : m.reg .ebx = 0x100001 := start
    have ebx : (m.set .ecx 0xFFEFFFFE).reg .ebx = 0x100001 :=
      (m.set_other _ (by decide)).trans start
    exact ⟨by rw [ebx]; decide, by rw [ebx, Machine.set_self]; decide, by
      rw [Machine.set_self]; decide⟩
  · exact leads_calm (Calm.mov writes_dh _) (by decide) rfl fun m t kept _ count => by
      rwa [Holding, kept.reg (by decide : Disjoint (whole .ebx) _),
        kept.reg (by decide : Disjoint (whole .ecx) _)]
  · exact leads_tested (by decide) rfl (fun _ count => count.1) fun m t regs count => by
      rwa [Holding, regs]
  · exact leads_jump (by decide) ⟨rfl, rfl⟩ fun m count => ⟨trivial, count⟩
  · exact leads_tested (by decide) rfl (fun _ count => count.1) fun m t regs count => by
      rwa [Holding, regs]
  · refine leads_calm (Calm.update saves_ebx.writes _ _) (by decide) rfl
      fun m t kept done ⟨low, sum, more⟩ => ?_
    have ecx := kept.reg (by decide : Disjoint (whole .ecx) _)
    cases Option.some.inj done
    obtain ⟨low, sum⟩ := counted_inc low sum more
    rw [Holding, ecx]
    exact ⟨low, sum, more⟩
  · refine leads_loop (by decide) ⟨rfl, rfl⟩ fun m ⟨low, sum, more⟩ => ⟨fun again => ?_, trivial⟩
    have ebx : (m.set .ecx (m.reg .ecx - 1)).reg .ebx = m.reg .ebx := m.set_other _ (by decide)
    have less := toNat_pred more
    change Holding _ 7
    rw [Holding, ebx, Machine.set_self]
    exact ⟨low, by omega, again⟩
  · exact leads_restore
  · exact leads_free (Calm.update saves_edx.writes _ _) (by decide) rfl fun _ => trivial
  · exact leads_free (Calm.mov saves_eax.writes _) (by decide) rfl fun _ => trivial
  · exact leads_free (Calm.mov saves_ebx.writes _) (by decide) rfl fun _ => trivial
  · refine leads_plain fun m t placed done => ?_
    rw [div] at done
    obtain ⟨d, -, done⟩ := Option.bind_eq_some_iff.mp done
    by_cases overflow : d = 0 ∨ 2 ^ 32 ≤ (m.reg .edx ++ m.reg .eax).toNat / d.toNat
    · rw [if_pos overflow] at done
      cases done
    · rw [if_neg overflow] at done
      cases Option.some.inj done
      exact placed.move (by decide) rfl rfl rfl (fun _ _ => rfl) trivial

theorem leads_showMegabytes (few : k < 18) : e.Leads (18 + k) (showMegabytes.get ⟨k, few⟩) := by
  interval_cases k
  · exact leads_free (Calm.update writes_edi _ _) (by decide) rfl fun _ => trivial
  · exact leads_free (Calm.mov writes_edi _) (by decide) rfl fun _ => trivial
  · exact leads_push (by decide) (by decide) rfl rfl rfl rfl (fun _ => trivial)
      (fun _ => Or.inl ⟨rfl, by decide⟩) nofun
  · exact leads_push (by decide) (by decide) rfl rfl rfl rfl (fun _ => trivial)
      (fun _ => Or.inl ⟨rfl, by decide⟩) nofun
  · exact leads_free (Calm.mov saves_ecx.writes _) (by decide) rfl fun _ => trivial
  · exact leads_free (Calm.update writes_edi _ _) (by decide) rfl fun _ => trivial
  · exact leads_free (Calm.mov writes_dl _) (by decide) rfl fun _ => trivial
  · exact leads_free (Calm.update writes_dl _ _) (by decide) rfl fun _ => trivial
  · exact leads_jump (by decide) ⟨rfl, rfl⟩ fun _ _ => ⟨trivial, trivial⟩
  · exact leads_free (Calm.update writes_dl _ _) (by decide) rfl fun _ => trivial
  · exact leads_free (Calm.update writes_dl _ _) (by decide) rfl fun _ => trivial
  · exact leads_free (Calm.mov writes_dh _) (by decide) rfl fun _ => trivial
  · exact leads_video (by decide) rfl fun _ _ _ _ => trivial
  · exact leads_free (Calm.update saves_eax.writes _ _) (by decide) rfl fun _ => trivial
  · exact leads_free (Calm.update writes_edi _ _) (by decide) rfl fun _ => trivial
  · exact leads_loop (by decide) ⟨rfl, rfl⟩ fun _ _ => ⟨fun _ => trivial, trivial⟩
  · exact leads_pop saves_dx.writes (by decide) rfl rfl rfl (fun _ => trivial)
      (fun _ => rfl) rfl
  · exact leads_pop saves_ecx.writes (by decide) rfl rfl rfl (fun _ => trivial)
      (fun _ => rfl) rfl

theorem line_computeMemory (few : k < 17) : e.program[k + 1]? =
    some (shifted 1 ((computeMemory (dataSegment e.base e.size)).get ⟨k, few⟩)) := by
  interval_cases k <;> rfl

theorem line_showMegabytes (few : k < 18) :
    e.program[18 + k]? = some (showMegabytes.get ⟨k, few⟩) := by
  interval_cases k <;> rfl

theorem leads_program (line : e.program[pc]? = some l) : e.Leads pc l := by
  have call : e.Leads 0 (.plain (push (imm e.back))) :=
    leads_push (by decide) (by decide) rfl rfl rfl rfl (fun _ => trivial)
      (fun _ => Or.inr ⟨rfl, rfl, fun _ => congrArg some (BitVec.setWidth_eq _).symm⟩) nofun
  have wait : e.Leads 37 (.jump (waits e.data) work) :=
    leads_jump (by decide) ⟨rfl, rfl⟩ fun _ _ => ⟨trivial, trivial⟩
  have inside : pc < 38 := (List.getElem?_eq_some_iff.mp line).1
  rcases Nat.lt_or_ge pc 18 with counting | printing
  · cases pc with
    | zero =>
      cases Option.some.inj line
      exact call
    | succ k =>
      cases Option.some.inj ((line_computeMemory (by omega)).symm.trans line)
      exact leads_computeMemory (by omega)
  · obtain ⟨k, rfl⟩ := Nat.exists_eq_add_of_le printing
    rcases Nat.lt_or_ge k 18 with shown | behind
    · cases Option.some.inj ((line_showMegabytes shown).symm.trans line)
      exact leads_showMegabytes shown
    · obtain rfl | rfl : k = 18 ∨ k = 19 := by omega
      · cases Option.some.inj line
        exact leads_ret
      · cases Option.some.inj line
        exact wait

end lines

end Excursion

end OsUnix.ProtectedMode
