import OsUnix.BiosTimer.Model
import Mathlib.Logic.Function.Iterate

/-!
# The time of day and the motor

What any number of ticks makes of the counter, of the byte that tells of midnight, and of the motor
of the diskette drive.
-/

namespace OsUnix.BiosTimer
open X86 State

variable {s t : State} {timerBreak : State → State}

def day : Nat := 0x1800B0

structure Harmless (timerBreak : State → State) : Prop where
  clock : ∀ s, (timerBreak s).ds 32 0x6C = s.ds 32 0x6C
  midnight : ∀ s, (timerBreak s).ds 8 0x70 = s.ds 8 0x70
  status : ∀ s, (timerBreak s).ds 8 0x3F = s.ds 8 0x3F
  motor : ∀ s, (timerBreak s).ds 8 0x40 = s.ds 8 0x40
  sent : ∀ s, (timerBreak s).sent.filter (·.1 == 0x3F2) = s.sent.filter (·.1 == 0x3F2)

theorem increment_count : s.increment.count = (s.count + 1) % 2 ^ 32 := by
  have low := (s.ds 16 0x6C).isLt
  have high := (s.ds 16 0x6E).isLt
  have stored : (s.store 0x6C (s.ds 16 0x6C + 1)).ds 16 0x6C = s.ds 16 0x6C + 1 :=
    ds_store_self _ rfl
  have apart : (s.store 0x6C (s.ds 16 0x6C + 1)).ds 16 0x6E = s.ds 16 0x6E :=
    ds_store_apart _ (.inr (by decide))
  rw [increment, stored, apart]
  by_cases carry : s.ds 16 0x6C + 1 = 0
  · rw [if_neg (not_not.mpr carry), count_eq, count_eq, ds_store_self _ rfl,
      ds_store_apart _ (.inl (by decide)), stored, carry, BitVec.toNat_add]
    have last := congrArg BitVec.toNat carry
    simp only [BitVec.toNat_add, BitVec.ofNat_eq_ofNat, BitVec.toNat_ofNat] at last ⊢
    omega
  · rw [if_pos carry, count_eq, count_eq, stored, apart]
    have more : (s.ds 16 0x6C + 1).toNat ≠ 0 := fun zero => carry (BitVec.eq_of_toNat_eq zero)
    simp only [BitVec.toNat_add, BitVec.ofNat_eq_ofNat, BitVec.toNat_ofNat] at more ⊢
    omega

theorem count_eq_day : s.count = day ↔ s.ds 16 0x6E = 0x18 ∧ s.ds 16 0x6C = 0xB0 := by
  have low := (s.ds 16 0x6C).isLt
  rw [count_eq, ← BitVec.toNat_inj, ← BitVec.toNat_inj]
  simp only [day, BitVec.ofNat_eq_ofNat, BitVec.toNat_ofNat]
  omega

theorem loc1_eq : s.loc1 =
    if s.count = day then
      ((s.store 0x6E (0 : BitVec 16)).store 0x6C (0 : BitVec 16)).store 0x70 (1 : BitVec 8)
    else s := by
  rw [loc1]
  by_cases high : s.ds 16 0x6E = 0x18
  · by_cases low : s.ds 16 0x6C = 0xB0
    · rw [if_neg (not_not.mpr high), if_neg (not_not.mpr low),
        if_pos (count_eq_day.mpr ⟨high, low⟩)]
    · rw [if_neg (not_not.mpr high), if_pos low, if_neg fun full => low (count_eq_day.mp full).2]
  · rw [if_pos high, if_neg fun full => high (count_eq_day.mp full).1]

theorem loc1_count : s.loc1.count = if s.count = day then 0 else s.count := by
  rw [loc1_eq]
  split
  · rw [count_eq, ds_store_apart _ (.inl (by decide)), ds_store_apart _ (.inr (by decide)),
      ds_store_self _ rfl, ds_store_apart _ (.inl (by decide)), ds_store_self _ rfl]
    rfl
  · rfl

theorem loc1_midnight : s.loc1.ds 8 0x70 = if s.count = day then 1 else s.ds 8 0x70 := by
  rw [loc1_eq]
  split
  · exact ds_store_self _ rfl
  · rfl

theorem increment_ds {w offset : Nat} (outside : offset + w / 8 ≤ 0x6C ∨ 0x70 ≤ offset) :
    s.increment.ds w offset = s.ds w offset := by
  rw [increment]
  split
  · exact ds_store_apart _ (by omega)
  · rw [ds_store_apart _ (by omega), ds_store_apart _ (by omega)]

theorem loc1_ds {w offset : Nat} (outside : offset + w / 8 ≤ 0x6C) :
    s.loc1.ds w offset = s.ds w offset := by
  rw [loc1_eq]
  split
  · rw [ds_store_apart _ (by omega), ds_store_apart _ (by omega), ds_store_apart _ (by omega)]
  · rfl

theorem loc2_ds {w offset : Nat} (outside : 0x41 ≤ offset) :
    s.loc2.ds w offset = s.ds w offset := by
  rw [loc2]
  split
  · exact ds_store_apart _ (by omega)
  · rw [out_ds, ds_store_apart _ (by omega), ds_store_apart _ (by omega)]

theorem tick_ds {w offset : Nat} (harmless : (timerBreak s.sub1.increment.loc1.loc2).ds w offset =
      s.sub1.increment.loc1.loc2.ds w offset) (inside : offset + w / 8 ≤ 0x314) :
    (tick timerBreak s).ds w offset = s.sub1.increment.loc1.loc2.ds w offset := by
  rw [tick, out_ds, sub1_ds inside, harmless]

theorem count_succ_mod : (s.count + 1) % 2 ^ 32 = day ↔ s.count + 1 = day := by
  have bound : s.count < 2 ^ 32 := (s.ds 32 0x6C).isLt
  simp only [day]
  omega

theorem tick_count (harmless : Harmless timerBreak) : (tick timerBreak s).count =
    if s.count + 1 = day then 0 else (s.count + 1) % 2 ^ 32 := by
  have kept : (tick timerBreak s).count = s.sub1.increment.loc1.count := by
    rw [count, tick_ds (harmless.clock _) (by decide), loc2_ds (by decide), count]
  have first : s.sub1.count = s.count := by rw [count, sub1_ds (by decide), count]
  rw [kept, loc1_count, increment_count, first]
  simp only [count_succ_mod]

theorem tick_midnight (harmless : Harmless timerBreak) : (tick timerBreak s).ds 8 0x70 =
    if s.count + 1 = day then 1 else s.ds 8 0x70 := by
  have first : s.sub1.count = s.count := by rw [count, sub1_ds (by decide), count]
  rw [tick_ds (harmless.midnight _) (by decide), loc2_ds (by decide), loc1_midnight,
    increment_count, first, increment_ds (.inr (Nat.le_refl _)), sub1_ds (by decide)]
  simp only [count_succ_mod]

theorem loc2_eq : s.loc2 =
    if s.ds 8 0x40 = 1 then
      ((s.store 0x40 (0 : BitVec 8)).store 0x3F (s.ds 8 0x3F &&& 0xF0)).out 0x3F2 0x0C
    else s.store 0x40 (s.ds 8 0x40 - 1) := by
  have stored : (s.store 0x40 (s.ds 8 0x40 - 1)).ds 8 0x40 = s.ds 8 0x40 - 1 :=
    ds_store_self _ rfl
  have apart : (s.store 0x40 (s.ds 8 0x40 - 1)).ds 8 0x3F = s.ds 8 0x3F :=
    ds_store_apart _ (.inl (by decide))
  rw [loc2, stored, apart]
  by_cases last : s.ds 8 0x40 = 1
  · rw [last]
    rfl
  · rw [if_neg last, if_pos fun zero => last (BitVec.sub_eq_iff_eq_add.mp zero)]

theorem tick_motor (harmless : Harmless timerBreak) :
    (tick timerBreak s).ds 8 0x40 = s.ds 8 0x40 - 1 := by
  have before : s.sub1.increment.loc1.ds 8 0x40 = s.ds 8 0x40 := by
    rw [loc1_ds (by decide), increment_ds (.inl (by decide)), sub1_ds (by decide)]
  rw [tick_ds (harmless.motor _) (by decide), loc2_eq, before]
  split
  · rename_i last
    rw [out_ds, ds_store_apart _ (.inr (by decide)), ds_store_self _ rfl, last]
    rfl
  · exact ds_store_self _ rfl

theorem tick_status (harmless : Harmless timerBreak) : (tick timerBreak s).ds 8 0x3F =
    if s.ds 8 0x40 = 1 then s.ds 8 0x3F &&& 0xF0 else s.ds 8 0x3F := by
  have motor : s.sub1.increment.loc1.ds 8 0x40 = s.ds 8 0x40 := by
    rw [loc1_ds (by decide), increment_ds (.inl (by decide)), sub1_ds (by decide)]
  have before : s.sub1.increment.loc1.ds 8 0x3F = s.ds 8 0x3F := by
    rw [loc1_ds (by decide), increment_ds (.inl (by decide)), sub1_ds (by decide)]
  rw [tick_ds (harmless.status _) (by decide), loc2_eq, motor, before]
  split
  · exact ds_store_self _ rfl
  · rw [ds_store_apart _ (.inl (by decide)), before]

def commands (s : State) : List (BitVec 16 × BitVec 8) := s.sent.filter (·.1 == 0x3F2)

theorem increment_sent : s.increment.sent = s.sent := by
  rw [increment]
  split <;> rfl

theorem loc1_sent : s.loc1.sent = s.sent := by
  rw [loc1_eq]
  split <;> rfl

theorem tick_commands (harmless : Harmless timerBreak) : commands (tick timerBreak s) =
    commands s ++ if s.ds 8 0x40 = 1 then [(0x3F2, 0x0C)] else [] := by
  have motor : s.sub1.increment.loc1.ds 8 0x40 = s.ds 8 0x40 := by
    rw [loc1_ds (by decide), increment_ds (.inl (by decide)), sub1_ds (by decide)]
  have sent : s.sub1.increment.loc1.sent = s.sent := by
    rw [loc1_sent, increment_sent, sub1_sent]
  have kept : commands (tick timerBreak s) = commands s.sub1.increment.loc1.loc2 := by
    rw [commands, tick, out, sub1_sent, List.filter_append, harmless.sent]
    exact List.append_nil _
  rw [kept, loc2_eq, motor, commands, commands, ← sent]
  split
  · exact List.filter_append ..
  · exact (List.append_nil _).symm

/-- The count `n` ticks after `c`. One that is not the time of a day goes on up to its last bit. -/
def time (c n : Nat) : Nat :=
  if c < day then (c + n) % day else if c + n < 2 ^ 32 then c + n else (c + n - 2 ^ 32) % day

def PassesMidnight (c n : Nat) : Prop := if c < day then day ≤ c + n else 2 ^ 32 + day ≤ c + n

instance (c n : Nat) : Decidable (PassesMidnight c n) := by
  unfold PassesMidnight
  infer_instance

theorem time_succ (c n : Nat) :
    time c (n + 1) = if time c n + 1 = day then 0 else (time c n + 1) % 2 ^ 32 := by
  unfold time day
  split_ifs <;> omega

theorem ticks_succ (n : Nat) :
    ticks timerBreak (n + 1) s = tick timerBreak (ticks timerBreak n s) :=
  Function.iterate_succ_apply' _ _ _

theorem passesMidnight_succ (c n : Nat) :
    PassesMidnight c (n + 1) ↔ PassesMidnight c n ∨ time c n + 1 = day := by
  unfold PassesMidnight time day
  split_ifs <;> omega

/-- From a time of the day the counter goes round in 24 hours, and the byte at 70h is 1 once it has
passed midnight. From any other value it goes round when it has reached its last bit. -/
theorem counts_the_day (timerBreak : State → State) (harmless : Harmless timerBreak) (n : Nat)
    (s : State) :
    (ticks timerBreak n s).count = time s.count n ∧
      (ticks timerBreak n s).ds 8 0x70 =
        if PassesMidnight s.count n then 1 else s.ds 8 0x70 := by
  induction n with
  | zero =>
      have bound : s.count < 2 ^ 32 := (s.ds 32 0x6C).isLt
      have here : ticks timerBreak 0 s = s := rfl
      have now : time s.count 0 = s.count := by
        unfold time day
        split_ifs <;> omega
      have no : ¬ PassesMidnight s.count 0 := by
        unfold PassesMidnight day
        split_ifs <;> omega
      rw [here, now, if_neg no]
      exact ⟨rfl, rfl⟩
  | succ n ih =>
      obtain ⟨count, midnight⟩ := ih
      rw [ticks_succ, tick_count harmless, tick_midnight harmless, count, midnight, time_succ]
      simp only [passesMidnight_succ, true_and]
      by_cases last : time s.count n + 1 = day
      · rw [if_pos last, if_pos (.inr last)]
      · simp only [last, or_false, if_false]

theorem harmless_id : Harmless id :=
  ⟨fun _ => rfl, fun _ => rfl, fun _ => rfl, fun _ => rfl, fun _ => rfl⟩

def midnight : State where
  mem x := if x = 0x46C then 0xAF else if x = 0x46E then 0x18 else if x = 0x440 then 1 else
    if x = 0x43F then 0xFF else 0
  sent := []

theorem counts_the_day_midnight :
    (ticks id 1 midnight).count = 0 ∧ (ticks id 1 midnight).ds 8 0x70 = 1 := by
  obtain ⟨count, passed⟩ := counts_the_day id harmless_id 1 midnight
  exact ⟨count.trans (by decide), passed.trans (by decide)⟩

def stops (c : BitVec 8) (n : Nat) : Nat := (n + (256 - c.toNat) % 256) / 256

theorem stops_succ (c : BitVec 8) (n : Nat) :
    stops c (n + 1) = stops c n + if c - BitVec.ofNat 8 n = 1 then 1 else 0 := by
  have bound := c.isLt
  have last : c - BitVec.ofNat 8 n = 1 ↔ (n + (256 - c.toNat) % 256) % 256 = 255 := by
    rw [← BitVec.toNat_inj, BitVec.toNat_sub]
    simp only [BitVec.toNat_ofNat, BitVec.ofNat_eq_ofNat]
    omega
  simp only [last, stops]
  split <;> omega

/-- The motor is stopped when its counter has run down, and 256 ticks later again. -/
theorem motor_stops (timerBreak : State → State) (harmless : Harmless timerBreak) (n : Nat)
    (s : State) :
    (ticks timerBreak n s).ds 8 0x40 = s.ds 8 0x40 - BitVec.ofNat 8 n ∧
      commands (ticks timerBreak n s) =
        commands s ++ List.replicate (stops (s.ds 8 0x40) n) (0x3F2, 0x0C) ∧
      (ticks timerBreak n s).ds 8 0x3F =
        if stops (s.ds 8 0x40) n = 0 then s.ds 8 0x3F else s.ds 8 0x3F &&& 0xF0 := by
  induction n with
  | zero =>
      have none : stops (s.ds 8 0x40) 0 = 0 := Nat.div_eq_of_lt (by omega)
      rw [none]
      exact ⟨(BitVec.sub_zero _).symm, (List.append_nil _).symm, rfl⟩
  | succ n ih =>
      obtain ⟨motor, sent, status⟩ := ih
      rw [ticks_succ, tick_motor harmless, tick_commands harmless, tick_status harmless, motor,
        sent, status, stops_succ]
      refine ⟨?_, ?_, ?_⟩
      · rw [BitVec.ofNat_add, ← BitVec.sub_sub]
        rfl
      · by_cases last : s.ds 8 0x40 - BitVec.ofNat 8 n = 1
        · rw [if_pos last, if_pos last, List.replicate_succ', List.append_assoc]
        · rw [if_neg last, if_neg last, List.append_nil, Nat.add_zero]
      · by_cases last : s.ds 8 0x40 - BitVec.ofNat 8 n = 1
        · rw [if_pos last, if_pos last, if_neg (Nat.succ_ne_zero _)]
          split
          · rfl
          · rw [BitVec.and_assoc, BitVec.and_self]
        · rw [if_neg last, if_neg last, Nat.add_zero]

theorem motor_stops_once : (ticks id 1 midnight).ds 8 0x3F = 0xF0 ∧
    commands (ticks id 1 midnight) = [(0x3F2, 0x0C)] := by
  obtain ⟨-, sent, status⟩ := motor_stops id harmless_id 1 midnight
  exact ⟨status.trans (by decide), sent.trans (by decide)⟩

end OsUnix.BiosTimer
