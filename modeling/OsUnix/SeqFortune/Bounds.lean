import OsUnix.SeqFortune.Queue

/-!
# Which bytes are touched

`my_write` compares nothing with the size of the pot. As long as the messages fit, the last byte of
the pot stays zero, so that a show runs out of the pot only when it begins behind its end.
-/

namespace OsUnix.SeqFortune
open Kernel

variable {pot next : Pot} {buffer : List UInt8} {count : Nat} {op : Op} {answer : Answer}
  {outside : Memory} {ops : List Op}

structure BoundedWrite (pot : Pot) (count : Nat) (write : Write) : Prop where
  stores : write.stores.Within 0 cookiePotSize
  refused : cookiePotSize < pot.writeIndex + count → write.ret < 0 ∧
    write.pot.writeIndex = pot.writeIndex ∧
      ∀ i, 0 ≤ i → i < pot.writeIndex → write.pot.str i = pot.str i

def Bounded (pot : Pot) : Op → Pot → Answer → Prop
  | .write _ count, _, .wrote write => BoundedWrite pot count write
  | .show, _, .showed shown => shown.scanned.Within 0 cookiePotSize
  | _, _, _ => False

def Careful (pot : Pot) : Op → Prop
  | .write _ count => 0 < pot.writeIndex + count ∧ pot.writeIndex + count ≤ cookiePotSize
  | .show => pot.readIndex < cookiePotSize

structure Closed (pot : Pot) : Prop where
  write_nonneg : 0 ≤ pot.writeIndex
  write_le : pot.writeIndex ≤ cookiePotSize
  read_nonneg : 0 ≤ pot.readIndex
  read_le : pot.readIndex ≤ cookiePotSize
  last : pot.str (cookiePotSize - 1) = 0

theorem Closed.fresh : Closed (.fresh outside) where
  write_nonneg := Int.le_refl 0
  write_le := Int.natCast_nonneg _
  read_nonneg := Int.le_refl 0
  read_le := Int.natCast_nonneg _
  last := by
    have inside : (0 : Int) ≤ cookiePotSize - 1 ∧ (cookiePotSize : Int) - 1 < cookiePotSize := by
      decide
    exact if_pos (e := outside (cookiePotSize - 1)) inside

theorem fits_of_copy (closed : Closed pot)
    (within : (copyFromUser pot.writeIndex buffer count).accesses.Within 0 cookiePotSize) :
    pot.writeIndex + count ≤ cookiePotSize := by
  cases count with
  | zero =>
      have le := closed.write_le
      omega
  | succ n =>
      have some_byte : copied buffer (n + 1) ≠ [] :=
        List.ne_nil_of_length_eq_add_one length_copied
      have bound := (Accesses.Within.of_place within some_byte).2
      rwa [length_copied] at bound

theorem BoundedWrite.careful (closed : Closed pot)
    (bounded : BoundedWrite pot count (myWrite pot buffer count)) :
    Careful pot (.write buffer count) := by
  have nonneg := closed.write_nonneg
  have stores := bounded.stores
  by_cases whole : count ≤ buffer.length
  · unfold myWrite at stores
    rw [if_neg (not_not.mpr (copyFromUser_left.mpr whole))] at stores
    obtain ⟨copy, terminator⟩ := Accesses.within_append.mp stores
    refine ⟨?_, fits_of_copy closed copy⟩
    by_contra empty
    -- the terminator of nothing in an empty pot is stored at the index 2 ^ 32 - 1
    have index : pot.writeIndex + count = 0 := by omega
    rw [index] at terminator
    exact absurd (Accesses.within_singleton.mp terminator).2 (by decide)
  · have short : buffer.length < count := by omega
    rw [myWrite_failed short] at stores
    exact ⟨by omega, fits_of_copy closed stores⟩

theorem bounded_of_careful (closed : Closed pot) (careful : Careful pot (.write buffer count)) :
    BoundedWrite pot count (myWrite pot buffer count) := by
  obtain ⟨positive, fits⟩ := careful
  have nonneg := closed.write_nonneg
  have copy : (copyFromUser pot.writeIndex buffer count).accesses.Within 0 cookiePotSize :=
    copyFromUser_within.mono nonneg fits
  refine ⟨?_, fun exceeds => absurd fits (Int.not_le.mpr exceeds)⟩
  by_cases whole : count ≤ buffer.length
  · rw [myWrite_accepted nonneg positive fits whole]
    exact Accesses.within_append.mpr ⟨copy, Accesses.within_singleton.mpr (by omega)⟩
  · rw [myWrite_failed (Nat.lt_of_not_le whole)]
    exact copy

theorem copy_last (closed : Closed pot) (short : buffer.length < count)
    (fits : pot.writeIndex + count ≤ cookiePotSize) :
    pot.str.store (copyFromUser pot.writeIndex buffer count).accesses (cookiePotSize - 1) = 0 := by
  by_cases ends : pot.writeIndex + count = cookiePotSize
  · have position : (cookiePotSize : Int) - 1 = pot.writeIndex + (count - 1 : Nat) := by omega
    rw [position]
    exact copyFromUser_fill (by omega) (by omega)
  · rw [Memory.store_eq copyFromUser_within (.inr (by omega))]
    exact closed.last

theorem terminated_last (closed : Closed pot) (fits : pot.writeIndex + count ≤ cookiePotSize) :
    (pot.str.store (copyFromUser pot.writeIndex buffer count).accesses).store
      [(pot.writeIndex + count - 1, 0)] (cookiePotSize - 1) = 0 := by
  by_cases ends : pot.writeIndex + count = cookiePotSize
  · rw [ends, Memory.store, Memory.store, Function.update_self]
  · have other : (cookiePotSize : Int) - 1 ≠ pot.writeIndex + count - 1 := by omega
    rw [Memory.store, Memory.store, Function.update_of_ne other,
      Memory.store_eq copyFromUser_within (.inr (by omega))]
    exact closed.last

theorem Closed.write (closed : Closed pot) (careful : Careful pot (.write buffer count)) :
    Closed (myWrite pot buffer count).pot := by
  obtain ⟨positive, fits⟩ := careful
  have nonneg := closed.write_nonneg
  by_cases whole : count ≤ buffer.length
  · rw [myWrite_accepted nonneg positive fits whole]
    exact ⟨Int.le_of_lt positive, fits, closed.read_nonneg, closed.read_le,
      terminated_last closed fits⟩
  · have short : buffer.length < count := Nat.lt_of_not_le whole
    rw [myWrite_failed short]
    exact ⟨nonneg, closed.write_le, closed.read_nonneg, closed.read_le,
      copy_last closed short fits⟩

theorem exists_strlen_inside (closed : Closed pot) (inside : pot.readIndex < cookiePotSize) :
    ∃ n : Nat, pot.str.strlen pot.readIndex = some n ∧
      pot.readIndex + n + 1 ≤ cookiePotSize := by
  have nonneg := closed.read_nonneg
  have zero : pot.str (pot.readIndex + (cookiePotSize - 1 - pot.readIndex).toNat) = 0 := by
    rw [Int.toNat_of_nonneg (by omega), add_sub_cancel]
    exact closed.last
  obtain ⟨n, str, le⟩ := Memory.exists_strlen zero (by
    unfold cookiePotSize Memory.addressSpace
    omega)
  exact ⟨n, str, by omega⟩

theorem exists_show_iff (closed : Closed pot) :
    (∃ shown, myShow pot = some shown ∧ shown.scanned.Within 0 cookiePotSize) ↔
      pot.readIndex < cookiePotSize := by
  constructor
  · rintro ⟨shown, shows, within⟩
    obtain ⟨n, -, rfl⟩ := Option.map_eq_some_iff.mp shows
    have first := (within _ (Memory.mem_load (Nat.succ_pos n))).2
    simpa using first
  · intro inside
    obtain ⟨n, str, bound⟩ := exists_strlen_inside closed inside
    exact ⟨_, myShow_of_strlen str closed.read_nonneg (by omega),
      Memory.load_within.mono closed.read_nonneg (by omega)⟩

theorem Closed.show {shown : Show} (closed : Closed pot) (shows : myShow pot = some shown)
    (within : shown.scanned.Within 0 cookiePotSize) : Closed shown.pot := by
  have nonneg := closed.read_nonneg
  obtain ⟨n, str, rfl⟩ := Option.map_eq_some_iff.mp shows
  have inside := (within _ (Memory.mem_load (Nat.lt_succ_self n))).2
  dsimp only at inside
  have eq := myShow_of_strlen str nonneg (Int.le_of_lt inside)
  rw [shows] at eq
  rw [Option.some.inj eq]
  refine ⟨closed.write_nonneg, closed.write_le, ?_, ?_, closed.last⟩
  · dsimp only
    split <;> omega
  · dsimp only
    split <;> omega

theorem bounded_iff_careful (closed : Closed pot) :
    (∃ next answer, (component outside).step pot op = some (next, answer) ∧
      Bounded pot op next answer) ↔ Careful pot op := by
  cases op with
  | write buffer count =>
      constructor
      · rintro ⟨next, answer, step, bounded⟩
        cases step
        exact BoundedWrite.careful closed bounded
      · exact fun careful => ⟨_, _, rfl, bounded_of_careful closed careful⟩
  | «show» =>
      rw [Careful, ← exists_show_iff closed]
      constructor
      · rintro ⟨next, answer, step, bounded⟩
        obtain ⟨shown, shows, eq⟩ := Option.map_eq_some_iff.mp step
        cases eq
        exact ⟨shown, shows, bounded⟩
      · rintro ⟨shown, shows, within⟩
        exact ⟨shown.pot, .showed shown, Option.map_eq_some_iff.mpr ⟨shown, shows, rfl⟩, within⟩

theorem Closed.step (closed : Closed pot)
    (step : (component outside).step pot op = some (next, answer))
    (bounded : Bounded pot op next answer) : Closed next := by
  cases op with
  | write buffer count =>
      cases step
      exact closed.write (BoundedWrite.careful closed bounded)
  | «show» =>
      obtain ⟨shown, shows, eq⟩ := Option.map_eq_some_iff.mp step
      cases eq
      exact closed.show shows bounded

/-- A run touches no byte outside the pot, and refuses what does not fit, exactly when every write
fits and no show begins behind the end. -/
theorem serves_bounded_iff (outside : Memory) (ops : List Op) :
    (component outside).Serves Bounded (.fresh outside) ops ↔
      (component outside).Before Careful (.fresh outside) ops := by
  apply Component.serves_iff_before (I := Closed) (V := fun _ _ => True) Closed.fresh
  · exact Component.before_of_forall fun _ _ _ => trivial
  · exact fun closed _ => bounded_iff_careful closed
  · exact fun closed _ step bounded => closed.step step bounded

theorem not_serves_of_first (careless : ¬ Careful (.fresh outside) op) :
    ¬ (component outside).Serves Bounded (.fresh outside) [op] := by
  rintro ⟨next, answer, step, bounded, -⟩
  exact careless ((bounded_iff_careful Closed.fresh).mp ⟨next, answer, step, bounded⟩)

theorem serves_bounded_fails :
    ¬ (component 0).Serves Bounded (.fresh 0) [.write (List.replicate 4097 97) 4097] ∧
    ¬ (component 0).Serves Bounded (.fresh 0) [.write [] 0] := by
  constructor
  · exact not_serves_of_first fun careful => absurd careful.2 (by decide)
  · exact not_serves_of_first fun careful => absurd careful.1 (by decide)

end OsUnix.SeqFortune
