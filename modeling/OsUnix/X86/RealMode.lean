import OsUnix.X86.Total
import OsUnix.X86.Words

/-!
# Real mode

Segments of 64 kilobytes, and the stack in them.
-/

namespace OsUnix.X86

def paragraph (selector : BitVec 16) : Segment := ⟨selector, 16 * selector.toNat, 0xFFFF⟩

namespace Machine

def enter (m : Machine) (s : SegReg) (selector : BitVec 16) : Machine :=
  { m with seg := fun s' => if s' = s then paragraph selector else m.seg s' }

def sp (m : Machine) : BitVec 16 := (m.reg .esp).extractLsb' 0 16

theorem enter_self (m : Machine) (s : SegReg) (selector : BitVec 16) :
    (m.enter s selector).seg s = paragraph selector :=
  if_pos rfl

theorem enter_other (m : Machine) (selector : BitVec 16) (other : s' ≠ s) :
    (m.enter s selector).seg s' = m.seg s' :=
  if_neg other

def setSp (m : Machine) (top : BitVec 16) : Machine :=
  m.set .esp ((m.reg .esp).extractLsb' 16 16 ++ top)

theorem setSp_sp (m : Machine) (top : BitVec 16) : (m.setSp top).sp = top := by
  rw [sp, setSp, set_self]
  exact BitVec.extractLsb'_append_eq_right

end Machine

/-- A push in 16-bit code moves SP only. -/
def push16 (o : Operand w) : Instr := fun m => do
  let v ← o.get m
  let top := m.sp - BitVec.ofNat 16 (w / 8)
  (m.setSp top).store .ss (top.setWidth 32) v

def pop16 (o : Operand w) : Instr := fun m => do
  let v ← m.load .ss (m.sp.setWidth 32) w
  o.set v (m.setSp (m.sp + BitVec.ofNat 16 (w / 8)))

def selector16 (s : SegReg) : Operand 16 where
  get m := some (m.seg s).selector
  set v m := some (m.enter s v)

def shl (d : Operand w) (count : Nat) : Instr := update (fun v _ => v <<< count) d d

def shr (d : Operand w) (count : Nat) : Instr := update (fun v _ => v >>> count) d d

/-- `lgdt` reads the limit and the base. The register that they go to is not part of the machine. -/
def lgdt (o : Operand 48) : Instr := fun m => do
  let _ ← o.get m
  return m

theorem toNat_top (top : BitVec 16) : (top.setWidth 32).toNat = top.toNat := by
  have bound := top.isLt
  rw [BitVec.toNat_setWidth]
  omega

structure Real (ds ss sp : BitVec 16) (v : BitVec 32) (mem : Nat → BitVec 8) (m : Machine) :
    Prop where
  ds : m.seg .ds = paragraph ds
  ss : m.seg .ss = paragraph ss
  sp : m.sp = sp
  eax : m.reg .eax = v
  mem : m.mem = mem

section rules

variable {ds ss sp : BitVec 16} {v : BitVec 32} {mem : Nat → BitVec 8}

theorem Real.setSp (real : Real ds ss sp v mem m) (top : BitVec 16) :
    Real ds ss top v mem (m.setSp top) :=
  ⟨real.ds, real.ss, m.setSp_sp top, real.eax, real.mem⟩

theorem Real.put (real : Real ds ss sp v mem m) (a : Nat) (x : BitVec w) :
    Real ds ss sp v (write mem a x) (m.put a x) :=
  ⟨real.ds, real.ss, real.sp, real.eax, congrArg (fun mem => write mem a x) real.mem⟩

theorem Real.set (real : Real ds ss sp v mem m) (v' : BitVec 32) :
    Real ds ss sp v' mem (m.set .eax v') where
  ds := real.ds
  ss := real.ss
  sp := (congrArg (BitVec.extractLsb' 0 16) (m.set_other v' (by decide))).trans real.sp
  eax := m.set_self _ v'
  mem := real.mem

theorem Real.compute {f : Instr}
    (done : ∀ m : Machine, m.reg .eax = v → f m = some (m.set .eax v')) :
    Total (Real ds ss sp v mem) f (Real ds ss sp v' mem) :=
  fun m real => ⟨_, done m real.eax, real.set v'⟩

theorem Real.store {o : Operand w} (got : ∀ m : Machine, m.reg .eax = v → o.get m = some x)
    (fits : offset.toNat + w / 8 ≤ 0x10000) :
    Total (Real ds ss sp v mem) (mov (memory w .ds fun _ => offset) o)
      (Real ds ss sp v (write mem (16 * ds.toNat + offset.toNat) x)) := by
  intro m real
  refine ⟨_, ?_, real.put _ x⟩
  rw [mov, got m real.eax]
  apply (Machine.store_eq x (by rw [real.ds]; exact fits)).trans
  rw [real.ds]
  rfl

theorem Real.push {o : Operand w} (got : ∀ m : Machine, m.reg .eax = v → o.get m = some x)
    (fits : (sp - BitVec.ofNat 16 (w / 8)).toNat + w / 8 ≤ 0x10000) :
    Total (Real ds ss sp v mem) (push16 o) (Real ds ss (sp - BitVec.ofNat 16 (w / 8)) v
      (write mem (16 * ss.toNat + (sp - BitVec.ofNat 16 (w / 8)).toNat) x)) := by
  intro m real
  have lowered := real.setSp (sp - BitVec.ofNat 16 (w / 8))
  refine ⟨_, ?_, lowered.put _ x⟩
  rw [push16, got m real.eax, ← toNat_top (sp - _)]
  rw [← toNat_top (sp - _)] at fits
  apply (Machine.store_eq x (by rw [real.sp, lowered.ss]; exact fits)).trans
  rw [real.sp, lowered.ss]
  rfl

theorem Real.popDS (fits : sp.toNat + 2 ≤ 0x10000)
    (top : word mem 16 (16 * ss.toNat + sp.toNat) = ds') :
    Total (Real ds ss sp v mem) (pop16 (selector16 .ds)) (Real ds' ss (sp + 2) v mem) := by
  intro m real
  have raised := real.setSp (sp + 2)
  refine ⟨_, ?_, m.setSp (sp + 2) |>.enter_self .ds ds', ?_, raised.sp, raised.eax, raised.mem⟩
  · rw [← toNat_top] at fits
    rw [pop16, real.sp, Machine.load_eq (by rw [real.ss]; exact fits), real.ss, real.mem, toNat_top]
    exact congrArg (fun x => some ((m.setSp (sp + 2)).enter .ds x)) top
  · exact ((m.setSp (sp + 2)).enter_other ds' (by decide)).trans raised.ss

theorem Real.pop (fits : sp.toNat + 4 ≤ 0x10000) :
    Total (Real ds ss sp v mem) (pop16 (r32 .eax))
      (Real ds ss (sp + 4) (word mem 32 (16 * ss.toNat + sp.toNat)) mem) := by
  intro m real
  refine ⟨_, ?_, (real.setSp (sp + 4)).set _⟩
  rw [← toNat_top] at fits
  rw [pop16, real.sp, Machine.load_eq (by rw [real.ss]; exact fits), real.ss, real.mem, toNat_top]
  rfl

end rules

end OsUnix.X86
