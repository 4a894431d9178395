import OsUnix.X86.Words

/-!
# The timer interrupt of the BIOS

The code that `5-semestr/lab1/TEMP.LST` lists from `020A:0746` to `020A:07B0`, and `sub_1`. DS is
40h in all of it. The registers are left out: those that the code changes it gives back, and AX and
ES are 0 where it stores and calls through them.
-/

namespace OsUnix.BiosTimer
open X86

structure State where
  mem : Nat → BitVec 8
  sent : List (BitVec 16 × BitVec 8)

namespace State

def ds (s : State) (w offset : Nat) : BitVec w := word s.mem w (0x400 + offset)

def store (s : State) (offset : Nat) (v : BitVec w) : State :=
  { s with mem := write s.mem (0x400 + offset) v }

def out (s : State) (port : BitVec 16) (v : BitVec 8) : State :=
  { s with sent := s.sent ++ [(port, v)] }

def sub1 (s : State) : State :=
  if s.ds 16 0x314 &&& 0x2400 ≠ 0 then s else s.store 0x314 (s.ds 16 0x314 &&& 0xFDFF)

def increment (s : State) : State :=
  let s := s.store 0x6C (s.ds 16 0x6C + 1)
  if s.ds 16 0x6C ≠ 0 then s else s.store 0x6E (s.ds 16 0x6E + 1)

def loc1 (s : State) : State :=
  if s.ds 16 0x6E ≠ 0x18 then s else
  if s.ds 16 0x6C ≠ 0xB0 then s else
    ((s.store 0x6E (0 : BitVec 16)).store 0x6C (0 : BitVec 16)).store 0x70 (1 : BitVec 8)

def loc2 (s : State) : State :=
  let s := s.store 0x40 (s.ds 8 0x40 - 1)
  if s.ds 8 0x40 ≠ 0 then s else (s.store 0x3F (s.ds 8 0x3F &&& 0xF0)).out 0x3F2 0x0C

/-- `loc_3` calls the handler of interrupt 1Ch, by its number or by its address. -/
def tick (timerBreak : State → State) (s : State) : State :=
  (sub1 (timerBreak s.sub1.increment.loc1.loc2)).out 0x20 0x20

def ticks (timerBreak : State → State) (n : Nat) (s : State) : State := (tick timerBreak)^[n] s

def count (s : State) : Nat := (s.ds 32 0x6C).toNat

end State

variable {s t : State} {w w' offset offset' : Nat}

namespace State

theorem ds_store_self (v : BitVec w) (whole : 8 * (w / 8) = w) :
    (s.store offset v).ds w offset = v :=
  word_write s.mem _ v whole

theorem ds_store_apart (v : BitVec w')
    (apart : offset + w / 8 ≤ offset' ∨ offset' + w' / 8 ≤ offset) :
    (s.store offset' v).ds w offset = s.ds w offset :=
  word_apart (by omega)

@[simp] theorem out_ds (port : BitVec 16) (v : BitVec 8) :
    (s.out port v).ds w offset = s.ds w offset := rfl

theorem count_eq : s.count = 2 ^ 16 * (s.ds 16 0x6E).toNat + (s.ds 16 0x6C).toNat := by
  have glued : s.ds 32 0x6C = s.ds 16 0x6E ++ s.ds 16 0x6C := by
    apply BitVec.eq_of_getLsbD_eq
    intro j inside
    simp only [ds, word, BitVec.getLsbD_append, BitVec.getLsbD_setWidth, getLsbD_read]
    by_cases low : j < 16
    · simp [low, inside]
    · have quotient : 0x400 + 0x6E + (j - 16) / 8 = 0x400 + 0x6C + j / 8 := by omega
      have remainder : (j - 16) % 8 = j % 8 := by omega
      have bound : j - 16 < 16 := by omega
      simp [low, inside, quotient, remainder, bound]
  rw [count, glued, toNat_append_eq]

theorem sub1_ds (outside : offset + w / 8 ≤ 0x314) : s.sub1.ds w offset = s.ds w offset := by
  rw [sub1]
  split
  · rfl
  · exact ds_store_apart _ (.inl outside)

theorem sub1_sent : s.sub1.sent = s.sent := by
  rw [sub1]
  split <;> rfl

end State

end OsUnix.BiosTimer
