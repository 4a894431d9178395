import OsUnix.X86.Machine
import Mathlib.Algebra.Ring.Nat

/-!
# Words in memory

Words beside each other, on the stack and in rotation.
-/

namespace OsUnix.X86

theorem toNat_append_eq (high : BitVec w) (low : BitVec w') :
    (high ++ low).toNat = 2 ^ w' * high.toNat + low.toNat := by
  rw [BitVec.toNat_append, ← Nat.shiftLeft_add_eq_or_of_lt low.isLt, Nat.shiftLeft_eq,
    Nat.mul_comm]

theorem toNat_pred {c : BitVec 32} (nonzero : c ≠ 0) : (c - 1).toNat + 1 = c.toNat := by
  have positive : c.toNat ≠ 0 := fun zero => nonzero (BitVec.eq_of_toNat_eq zero)
  have one : (1 : BitVec 32) ≤ c := BitVec.le_def.mpr (Nat.pos_of_ne_zero positive)
  rw [BitVec.toNat_sub_of_le one]
  exact Nat.sub_add_cancel (BitVec.le_def.mp one)

def turned (v : BitVec 32) : Nat → BitVec 32
  | 0 => v
  | n + 1 => (turned v n).rotateRight 4

theorem getLsbD_turned (v : BitVec 32) (n j : Nat) (inside : j < 32) :
    (turned v n).getLsbD j = v.getLsbD ((j + 4 * n) % 32) := by
  induction n generalizing j with
  | zero => rw [turned, Nat.mul_zero, Nat.add_zero, Nat.mod_eq_of_lt inside]
  | succ n ih =>
      rw [turned, BitVec.getLsbD_rotateRight_of_lt (by decide)]
      by_cases low : j < 28
      · have place : (4 + j + 4 * n) % 32 = (j + 4 * (n + 1)) % 32 := by omega
        rw [decide_eq_true (show j < 32 - 4 from low), cond_true, ih (4 + j) (by omega), place]
      · have place : (j - 28 + 4 * n) % 32 = (j + 4 * (n + 1)) % 32 := by omega
        rw [decide_eq_false (show ¬ j < 32 - 4 from low), cond_false, ih (j - (32 - 4)) (by omega),
          place, decide_eq_true inside, Bool.true_and]

theorem turned_eight (v : BitVec 32) : turned v 8 = v := by
  apply BitVec.eq_of_getLsbD_eq
  intro j inside
  rw [getLsbD_turned v 8 j inside]
  congr 1
  omega

theorem nibble_turned (v : BitVec 32) (few : n < 8) :
    (turned v n).extractLsb' 0 4 = v.extractLsb' (4 * n) 4 := by
  apply BitVec.eq_of_getLsbD_eq
  intro j inside
  have place : (j + 4 * n) % 32 = 4 * n + j := by omega
  simp only [BitVec.getLsbD_extractLsb', inside, decide_true, Bool.true_and, Nat.zero_add]
  rw [getLsbD_turned v n j (by omega), place]

theorem toNat_nibble (v : BitVec 32) (n : Nat) :
    (v.extractLsb' (4 * n) 4).toNat = v.toNat / 16 ^ n % 16 := by
  rw [BitVec.extractLsb'_toNat, Nat.shiftRight_eq_div_pow, Nat.pow_mul]

def word (mem : Nat → BitVec 8) (w a : Nat) : BitVec w := (read mem a (w / 8)).setWidth w

theorem word_congr {mem mem' : Nat → BitVec 8}
    (same : ∀ x, a ≤ x → x < a + w / 8 → mem x = mem' x) : word mem w a = word mem' w a :=
  congrArg (BitVec.setWidth w) (read_congr same)

theorem word_write (mem : Nat → BitVec 8) (a : Nat) (v : BitVec w) (whole : 8 * (w / 8) = w) :
    word (write mem a v) w a = v :=
  read_write mem a v whole

theorem word_apart {mem : Nat → BitVec 8} {v : BitVec w'}
    (apart : a + w / 8 ≤ b ∨ b + w' / 8 ≤ a) : word (write mem b v) w a = word mem w a :=
  word_congr fun x low high => write_outside (by omega)

theorem word_byte (mem : Nat → BitVec 8) (a : Nat) : word mem 8 a = mem a := by
  have one : read mem a 1 = mem a := by
    apply BitVec.eq_of_getLsbD_eq
    intro j inside
    rw [getLsbD_read]
    simp [Nat.div_eq_of_lt inside, Nat.mod_eq_of_lt inside, inside]
  exact (BitVec.setWidth_eq _).trans one

namespace Machine

def put (m : Machine) (a : Nat) (v : BitVec w) : Machine := { m with mem := write m.mem a v }

@[simp] theorem set_set (m : Machine) (r : Reg) (v v' : BitVec 32) :
    (m.set r v).set r v' = m.set r v' := by
  simp only [set]
  congr 1
  funext r'
  split <;> rfl

theorem set_comm (m : Machine) (v v' : BitVec 32) (other : r ≠ r') :
    (m.set r v).set r' v' = (m.set r' v').set r v := by
  simp only [set]
  congr 1
  funext r''
  by_cases first : r'' = r
  · subst first
    simp [other]
  · simp [first]

theorem put_back (m : Machine) (a : Nat) (v : BitVec 8) : (m.put a v).put a (m.mem a) = m := by
  have same : write (write m.mem a v) a (m.mem a) = m.mem := by
    funext x
    by_cases here : x = a
    · subst here
      simp [write]
    · rw [write_outside (by omega), write_outside (by omega)]
  rw [put, put, same]

theorem load_eq {m : Machine} (fits : offset.toNat + w / 8 ≤ (m.seg s).limit + 1) :
    m.load s offset w = some (word m.mem w ((m.seg s).base + offset.toNat)) := by
  rw [load, address, if_pos fits]
  rfl

theorem store_eq {m : Machine} (v : BitVec w)
    (fits : offset.toNat + w / 8 ≤ (m.seg s).limit + 1) :
    m.store s offset v = some (m.put ((m.seg s).base + offset.toNat) v) := by
  rw [store, address, if_pos fits]
  rfl

end Machine

theorem run_step (first : instr s = some u) (rest : run block u = some t) :
    run (instr :: block) s = some t := by
  rw [run_cons, first]
  exact rest

theorem run_join (first : run block s = some u) (second : run block' u = some t) :
    run (block ++ block') s = some t := by
  rw [run_append, first]
  exact second

theorem mov_store {o : Operand w} (offset : Machine → BitVec 32) (got : o.get m = some v)
    (fits : (offset m).toNat + w / 8 ≤ (m.seg s).limit + 1) :
    mov (memory w s offset) o m = some (m.put ((m.seg s).base + (offset m).toNat) v) := by
  rw [mov, got]
  exact Machine.store_eq v fits

theorem mov_load (d : Operand w) (offset : Machine → BitVec 32)
    (fits : (offset m).toNat + w / 8 ≤ (m.seg s).limit + 1) :
    mov d (memory w s offset) m = d.set (word m.mem w ((m.seg s).base + (offset m).toNat)) m := by
  have got : (memory w s offset).get m = _ := Machine.load_eq fits
  rw [mov, got]
  rfl

theorem push_eq {o : Operand w} (got : o.get m = some v)
    (lowered : m.reg .esp - BitVec.ofNat 32 (w / 8) = top)
    (fits : BitVec.toNat top + w / 8 ≤ (m.seg .ss).limit + 1) :
    push o m = some ((m.set .esp top).put ((m.seg .ss).base + top.toNat) v) := by
  subst lowered
  rw [push, got]
  exact Machine.store_eq (m := m.set .esp (m.reg .esp - BitVec.ofNat 32 (w / 8))) v fits

theorem pop_eq {o : Operand w} (fits : (m.reg .esp).toNat + w / 8 ≤ (m.seg .ss).limit + 1) :
    pop o m = o.set (word m.mem w ((m.seg .ss).base + (m.reg .esp).toNat))
      (m.set .esp (m.reg .esp + BitVec.ofNat 32 (w / 8))) := by
  rw [pop, Machine.load_eq fits]
  rfl

def Machine.pushed (m : Machine) (v : BitVec w) : Machine :=
  (m.set .esp (m.reg .esp - BitVec.ofNat 32 (w / 8))).put
    ((m.seg .ss).base + ((m.reg .esp).toNat - w / 8)) v

theorem toNat_esp_pushed {m : Machine} (v : BitVec w) (size : w / 8 < 2 ^ 32)
    (room : w / 8 ≤ (m.reg .esp).toNat) :
    ((m.pushed v).reg .esp).toNat = (m.reg .esp).toNat - w / 8 := by
  have below := (m.reg .esp).isLt
  have lowered : (m.pushed v).reg .esp = m.reg .esp - BitVec.ofNat 32 (w / 8) := rfl
  rw [lowered, BitVec.toNat_sub, BitVec.toNat_ofNat]
  omega

theorem push_pushed {o : Operand w} (got : o.get m = some v) (size : w / 8 < 2 ^ 32)
    (room : w / 8 ≤ (m.reg .esp).toNat) (top : (m.reg .esp).toNat ≤ (m.seg .ss).limit + 1) :
    push o m = some (m.pushed v) := by
  have depth := toNat_esp_pushed v size room
  have lowered : (m.pushed v).reg .esp = m.reg .esp - BitVec.ofNat 32 (w / 8) := rfl
  rw [lowered] at depth
  have stored := push_eq got rfl (by rw [depth]; omega)
  rwa [depth] at stored

end OsUnix.X86
