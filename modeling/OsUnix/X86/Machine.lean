import Mathlib.Data.Finset.Basic

/-!
# A processor

Code without jumps in 32-bit segments. An access is checked against the limit of its segment only:
what the access byte of a descriptor forbids is not in the model.
-/

namespace OsUnix.X86

inductive Reg
  | eax | ebx | ecx | edx | esi | edi | ebp | esp
  deriving DecidableEq, Repr

inductive SegReg
  | cs | ds | es | fs | gs | ss
  deriving DecidableEq, Repr

/-- A segment register: the selector and the descriptor it was loaded from. -/
structure Segment where
  selector : BitVec 16
  base : Nat
  limit : Nat
  deriving DecidableEq, Repr

structure Machine where
  reg : Reg → BitVec 32
  seg : SegReg → Segment
  mem : Nat → BitVec 8
  port : BitVec 16 → BitVec 8
  sent : List (BitVec 16 × BitVec 8)

/-- `none` is a fault. -/
abbrev Instr := Machine → Option Machine

def run (block : List Instr) : Instr := fun m => block.foldlM (fun m instr => instr m) m

@[simp] theorem run_nil (m : Machine) : run [] m = some m := rfl

theorem run_cons (instr : Instr) (block : List Instr) (m : Machine) :
    run (instr :: block) m = (instr m).bind (run block) := rfl

theorem run_append (first second : List Instr) (m : Machine) :
    run (first ++ second) m = (run first m).bind (run second) :=
  List.foldlM_append

theorem run_single (instr : Instr) (m : Machine) : run [instr] m = instr m := by
  rw [run_cons]
  exact bind_pure (instr m)

def read (mem : Nat → BitVec 8) (a : Nat) : (n : Nat) → BitVec (8 * n)
  | 0 => 0#0
  | n + 1 => read mem (a + 1) n ++ mem a

def write (mem : Nat → BitVec 8) (a : Nat) (v : BitVec w) : Nat → BitVec 8 := fun x =>
  if a ≤ x ∧ x < a + w / 8 then v.extractLsb' (8 * (x - a)) 8 else mem x

theorem write_outside {mem : Nat → BitVec 8} {v : BitVec w}
    (outside : x < a ∨ a + w / 8 ≤ x) : write mem a v x = mem x :=
  if_neg (by omega)

theorem getLsbD_read (mem : Nat → BitVec 8) (a n j : Nat) :
    (read mem a n).getLsbD j = (decide (j < 8 * n) && (mem (a + j / 8)).getLsbD (j % 8)) := by
  induction n generalizing a j with
  | zero => simp [read]
  | succ n ih =>
      rw [read, BitVec.getLsbD_append, ih]
      by_cases first : j < 8
      · have inside : j < 8 * (n + 1) := by omega
        simp [first, inside, Nat.div_eq_of_lt first, Nat.mod_eq_of_lt first]
      · have quotient : a + 1 + (j - 8) / 8 = a + j / 8 := by omega
        have remainder : (j - 8) % 8 = j % 8 := by omega
        have bound : j - 8 < 8 * n ↔ j < 8 * (n + 1) := by omega
        simp [first, quotient, remainder, bound]

theorem read_write (mem : Nat → BitVec 8) (a : Nat) (v : BitVec w) (whole : 8 * (w / 8) = w) :
    (read (write mem a v) a (w / 8)).setWidth w = v := by
  ext j inside
  have byte : j / 8 < w / 8 := by omega
  have written : write mem a v (a + j / 8) = v.extractLsb' (8 * (j / 8)) 8 := by
    rw [write, if_pos (by omega), Nat.add_sub_cancel_left]
  rw [← BitVec.getLsbD_eq_getElem, BitVec.getLsbD_setWidth, getLsbD_read, written,
    BitVec.getLsbD_extractLsb', Nat.div_add_mod]
  simp [inside, whole, Nat.mod_lt, BitVec.getLsbD_eq_getElem]

theorem read_congr {mem mem' : Nat → BitVec 8} (same : ∀ x, a ≤ x → x < a + n → mem x = mem' x) :
    read mem a n = read mem' a n := by
  induction n generalizing a with
  | zero => rfl
  | succ n ih =>
      rw [read, read, same a (Nat.le_refl a) (by omega),
        ih fun x low high => same x (by omega) (by omega)]

namespace Machine

def set (m : Machine) (r : Reg) (v : BitVec 32) : Machine :=
  { m with reg := fun r' => if r' = r then v else m.reg r' }

@[simp] theorem set_seg (m : Machine) (r : Reg) (v : BitVec 32) : (m.set r v).seg = m.seg := rfl

@[simp] theorem set_mem (m : Machine) (r : Reg) (v : BitVec 32) : (m.set r v).mem = m.mem := rfl

@[simp] theorem set_self (m : Machine) (r : Reg) (v : BitVec 32) : (m.set r v).reg r = v :=
  if_pos rfl

theorem set_other (m : Machine) (v : BitVec 32) (other : r' ≠ r) :
    (m.set r v).reg r' = m.reg r' :=
  if_neg other

/-- The linear address of `w` bits at an offset, if they lie inside the limit. That a code segment
cannot be written, nor read with the access byte 98h, is not checked. -/
def address (m : Machine) (s : SegReg) (offset : BitVec 32) (w : Nat) : Option Nat :=
  if offset.toNat + w / 8 ≤ (m.seg s).limit + 1 then some ((m.seg s).base + offset.toNat) else none

def load (m : Machine) (s : SegReg) (offset : BitVec 32) (w : Nat) : Option (BitVec w) := do
  let a ← m.address s offset w
  return (read m.mem a (w / 8)).setWidth w

def store (m : Machine) (s : SegReg) (offset : BitVec 32) (v : BitVec w) : Option Machine := do
  let a ← m.address s offset w
  return { m with mem := write m.mem a v }

end Machine

structure Operand (w : Nat) where
  get : Machine → Option (BitVec w)
  set : BitVec w → Instr

def r32 (r : Reg) : Operand 32 where
  get m := some (m.reg r)
  set v m := some (m.set r v)

def r16 (r : Reg) : Operand 16 where
  get m := some ((m.reg r).extractLsb' 0 16)
  set v m := some (m.set r ((m.reg r).extractLsb' 16 16 ++ v))

def low8 (r : Reg) : Operand 8 where
  get m := some ((m.reg r).extractLsb' 0 8)
  set v m := some (m.set r ((m.reg r).extractLsb' 8 24 ++ v))

def high8 (r : Reg) : Operand 8 where
  get m := some ((m.reg r).extractLsb' 8 8)
  set v m := some (m.set r ((m.reg r).extractLsb' 16 16 ++ (v ++ (m.reg r).extractLsb' 0 8)))

/-- Nothing can be stored to an immediate operand. -/
def imm (v : BitVec w) : Operand w where
  get _ := some v
  set _ _ := none

def memory (w : Nat) (s : SegReg) (offset : Machine → BitVec 32) : Operand w where
  get m := m.load s (offset m) w
  set v m := m.store s (offset m) v

def mov (d s : Operand w) : Instr := fun m => do
  let v ← s.get m
  d.set v m

def update (f : BitVec w → BitVec w → BitVec w) (d s : Operand w) : Instr := fun m => do
  let old ← d.get m
  let v ← s.get m
  d.set (f old v) m

def add (d s : Operand w) : Instr := update (· + ·) d s

def sub (d s : Operand w) : Instr := update (· - ·) d s

def and (d s : Operand w) : Instr := update (· &&& ·) d s

def or (d s : Operand w) : Instr := update (· ||| ·) d s

def xor (d s : Operand w) : Instr := update (· ^^^ ·) d s

def inc (d : Operand w) : Instr := add d (imm 1)

def ror (d : Operand w) (count : Nat) : Instr :=
  update (fun v _ => v.rotateRight count) d d

def push (o : Operand w) : Instr := fun m => do
  let v ← o.get m
  let top := m.reg .esp - BitVec.ofNat 32 (w / 8)
  (m.set .esp top).store .ss top v

def pop (o : Operand w) : Instr := fun m => do
  let v ← m.load .ss (m.reg .esp) w
  o.set v (m.set .esp (m.reg .esp + BitVec.ofNat 32 (w / 8)))

def input (d : Operand 8) (port : BitVec 16) : Instr := fun m => d.set (m.port port) m

def output (port : BitVec 16) (s : Operand 8) : Instr := fun m => do
  let v ← s.get m
  return { m with sent := m.sent ++ [(port, v)] }

def branch (condition : Machine → Bool) (yes no : List Instr) : Instr := fun m =>
  if condition m then run yes m else run no m

def rounds (body : List Instr) : Nat → Instr
  | 0 => fun _ => none
  | n + 1 => fun m => do
      let m ← run body m
      let m := m.set .ecx (m.reg .ecx - 1)
      if m.reg .ecx = 0 then return m else rounds body n m

/-- The `loop` instruction at the end of a body that leaves ECX alone: ECX rounds, and 2³² if it
is 0. -/
def loop (body : List Instr) : Instr := rounds body 0x100000000

end OsUnix.X86
