import OsUnix.Fortune.Model

/-!
# The invariant of the pot

What holds after any calls whatever, overrunning ones included: the byte before `cookie_index` is
zero, so a read stops there at the latest.
-/

namespace OsUnix.Fortune
open Kernel

structure Sound (pot : Pot) : Prop where
  index_nonneg : 0 ≤ pot.cookieIndex
  index_le : pot.cookieIndex ≤ maxCookieLength + 1
  next_nonneg : 0 ≤ pot.nextFortune
  terminated : 0 < pot.cookieIndex → pot.cookiePot (pot.cookieIndex - 1) = 0
  zero : ∃ n : Nat, n ≤ maxCookieLength ∧ pot.cookiePot n = 0

variable {pot : Pot} {buf : List UInt8} {len room n : Nat} {ppos : Int} {outside : Memory}

theorem Sound.fresh : Sound (Pot.fresh outside) where
  index_nonneg := Int.le_refl 0
  index_le := by
    show (0 : Int) ≤ maxCookieLength + 1
    decide
  next_nonneg := Int.le_refl 0
  terminated positive := absurd positive (Int.lt_irrefl 0)
  zero := ⟨0, Nat.zero_le _, by simp [Pot.fresh, maxCookieLength]⟩

theorem spaceAvailable_eq {i : Int} (nonneg : 0 ≤ i) (le : i ≤ maxCookieLength + 1) :
    spaceAvailable i = maxCookieLength - i + 1 := by
  unfold spaceAvailable toInt toSize maxCookieLength at *
  omega

theorem full_iff {i : Int} (nonneg : 0 ≤ i) (le : i ≤ maxCookieLength + 1) :
    full i len = true ↔ maxCookieLength - i + 1 < len := by
  rw [full, decide_eq_true_iff, spaceAvailable_eq nonneg le,
    toSize_eq (by omega) (by unfold maxCookieLength; omega)]

theorem add_index (nonneg : 0 ≤ pot.cookieIndex)
    (fits : len ≤ maxCookieLength - pot.cookieIndex + 1) :
    (pot.add len).cookieIndex = pot.cookieIndex + len := by
  show toInt (toSize pot.cookieIndex + len) = pot.cookieIndex + len
  unfold maxCookieLength at fits
  rw [toSize_eq nonneg (by omega), toInt_eq (by omega) (by omega)]

theorem accepted_index (sound : Sound pot) (fits : len ≤ maxCookieLength - pot.cookieIndex + 1)
    (buf : List UInt8) : ((pot.copy buf len).add len).cookieIndex = pot.cookieIndex + len := by
  show (pot.add len).cookieIndex = pot.cookieIndex + len
  exact add_index sound.index_nonneg fits

inductive Writes (pot : Pot) (buf : List UInt8) (len : Nat) : Write → Prop
  | refused (exceeds : maxCookieLength - pot.cookieIndex + 1 < len) :
      Writes pot buf len ⟨pot, -enospc, []⟩
  | failed (room : len ≤ maxCookieLength - pot.cookieIndex + 1) (short : buf.length < len) :
      Writes pot buf len
        ⟨pot.copy buf len, -efault, (copyFromUser pot.cookieIndex buf len).accesses⟩
  | accepted (room : len ≤ maxCookieLength - pot.cookieIndex + 1) (whole : len ≤ buf.length) :
      Writes pot buf len
        ⟨((pot.copy buf len).add len).terminate, len,
          (copyFromUser pot.cookieIndex buf len).accesses ++ [(pot.cookieIndex + len - 1, 0)]⟩

theorem fortuneWrite_cases (sound : Sound pot) (buf : List UInt8) (len : Nat) :
    Writes pot buf len (fortuneWrite pot buf len) := by
  have nonneg := sound.index_nonneg
  have full := @full_iff len _ nonneg sound.index_le
  unfold fortuneWrite
  split
  · rename_i exceeds
    exact .refused (full.mp exceeds)
  · rename_i room
    have room : len ≤ maxCookieLength - pot.cookieIndex + 1 := by
      rw [full] at room
      omega
    dsimp only
    split
    · rename_i left
      rw [ne_eq, copyFromUser_left] at left
      exact .failed room (by omega)
    · rename_i whole
      rw [ne_eq, not_not, copyFromUser_left] at whole
      simp only [accepted_index sound room]
      rw [toSsize_eq (by omega) (by unfold maxCookieLength at room; omega)]
      exact .accepted room whole

theorem fortuneWrite_refused (sound : Sound pot)
    (exceeds : maxCookieLength - pot.cookieIndex + 1 < len) :
    fortuneWrite pot buf len = ⟨pot, -enospc, []⟩ := by
  have outcome := fortuneWrite_cases sound buf len
  generalize fortuneWrite pot buf len = write at outcome ⊢
  cases outcome with
  | refused _ => rfl
  | failed room _ => omega
  | accepted room _ => omega

theorem fortuneWrite_failed (sound : Sound pot)
    (room : len ≤ maxCookieLength - pot.cookieIndex + 1) (short : buf.length < len) :
    fortuneWrite pot buf len =
      ⟨pot.copy buf len, -efault, (copyFromUser pot.cookieIndex buf len).accesses⟩ := by
  have outcome := fortuneWrite_cases sound buf len
  generalize fortuneWrite pot buf len = write at outcome ⊢
  cases outcome with
  | refused exceeds => omega
  | failed _ _ => rfl
  | accepted _ whole => omega

theorem fortuneWrite_accepted (sound : Sound pot)
    (room : len ≤ maxCookieLength - pot.cookieIndex + 1) (whole : len ≤ buf.length) :
    fortuneWrite pot buf len =
      ⟨((pot.copy buf len).add len).terminate, len,
        (copyFromUser pot.cookieIndex buf len).accesses ++ [(pot.cookieIndex + len - 1, 0)]⟩ := by
  have outcome := fortuneWrite_cases sound buf len
  generalize fortuneWrite pot buf len = write at outcome ⊢
  cases outcome with
  | refused exceeds => omega
  | failed _ short => omega
  | accepted _ _ => rfl

theorem copy_below {i : Int} (below : i < pot.cookieIndex) :
    (pot.copy buf len).cookiePot i = pot.cookiePot i :=
  Memory.store_eq copyFromUser_within (.inl below)

theorem copy_above {i : Int} (above : pot.cookieIndex + len ≤ i) :
    (pot.copy buf len).cookiePot i = pot.cookiePot i :=
  Memory.store_eq copyFromUser_within (.inr above)

theorem accepted_above (sound : Sound pot) (room : len ≤ maxCookieLength - pot.cookieIndex + 1)
    (buf : List UInt8) {i : Int} (above : pot.cookieIndex + len ≤ i) :
    ((pot.copy buf len).add len).terminate.cookiePot i = pot.cookiePot i := by
  rw [terminate_cookiePot _ (by rw [accepted_index sound room]; omega), add_cookiePot,
    copy_above above]

theorem accepted_below (sound : Sound pot) (room : len ≤ maxCookieLength - pot.cookieIndex + 1)
    (buf : List UInt8) {i : Int} (below : i < pot.cookieIndex)
    (other : i ≠ pot.cookieIndex + len - 1) :
    ((pot.copy buf len).add len).terminate.cookiePot i = pot.cookiePot i := by
  rw [terminate_cookiePot _ (by rw [accepted_index sound room]; exact other), add_cookiePot,
    copy_below below]

theorem accepted_slice (sound : Sound pot) (room : len ≤ maxCookieLength - pot.cookieIndex + 1)
    (positive : 1 ≤ len) (whole : len ≤ buf.length) :
    ((pot.copy buf len).add len).terminate.cookiePot.slice pot.cookieIndex len =
      buf.take (len - 1) ++ [0] := by
  rw [Pot.terminate, accepted_index sound room]
  exact slice_message positive whole

theorem Sound.failed (sound : Sound pot) (room : len ≤ maxCookieLength - pot.cookieIndex + 1)
    (short : buf.length < len) : Sound (pot.copy buf len) where
  index_nonneg := sound.index_nonneg
  index_le := sound.index_le
  next_nonneg := sound.next_nonneg
  terminated positive := by
    rw [copy_cookieIndex] at positive ⊢
    rw [copy_below (by omega)]
    exact sound.terminated positive
  zero := by
    -- the fill ends in a zero
    have nonneg := sound.index_nonneg
    have last : (pot.copy buf len).cookiePot (pot.cookieIndex + (len - 1 : Nat)) = 0 :=
      copyFromUser_fill (by omega) (by omega)
    refine ⟨(pot.cookieIndex + (len - 1 : Nat)).toNat, by omega, ?_⟩
    rwa [Int.toNat_of_nonneg (by omega)]

theorem Sound.accepted (sound : Sound pot) (room : len ≤ maxCookieLength - pot.cookieIndex + 1)
    (buf : List UInt8) : Sound ((pot.copy buf len).add len).terminate := by
  have nonneg := sound.index_nonneg
  have index := accepted_index sound room buf
  constructor
  · rw [terminate_cookieIndex, index]
    omega
  · rw [terminate_cookieIndex, index]
    omega
  · exact sound.next_nonneg
  · intro _
    exact terminate_cookiePot_self _
  · by_cases empty : pot.cookieIndex + len = 0
    · -- nothing is copied, and the terminator goes below the pot
      obtain ⟨n, bound, zero⟩ := sound.zero
      exact ⟨n, bound, (accepted_above sound room buf (by omega)).trans zero⟩
    · refine ⟨(pot.cookieIndex + len - 1).toNat, by omega, ?_⟩
      rw [Int.toNat_of_nonneg (by omega), ← index]
      exact terminate_cookiePot_self _

theorem Sound.write (sound : Sound pot) : Sound (fortuneWrite pot buf len).pot := by
  have outcome := fortuneWrite_cases sound buf len
  generalize fortuneWrite pot buf len = write at outcome
  cases outcome with
  | refused exceeds => exact sound
  | failed room short => exact sound.failed room short
  | accepted room whole => exact sound.accepted room buf

theorem start_nonneg (sound : Sound pot) : 0 ≤ pot.start := by
  unfold Pot.start
  split
  · exact Int.le_refl 0
  · exact sound.next_nonneg

theorem start_eq_zero (sound : Sound pot) (empty : pot.cookieIndex = 0) : pot.start = 0 := by
  have nonneg := sound.next_nonneg
  exact if_pos (by omega)

theorem start_eq_next (before : pot.nextFortune < pot.cookieIndex) :
    pot.start = pot.nextFortune :=
  if_neg (Int.not_le.mpr before)

theorem start_lt (positive : 0 < pot.cookieIndex) : pot.start < pot.cookieIndex := by
  unfold Pot.start
  split <;> omega

theorem start_le (sound : Sound pot) : pot.start ≤ maxCookieLength + 1 := by
  have index_le := sound.index_le
  unfold Pot.start
  split
  · exact Int.natCast_nonneg _
  · omega

structure AtStart (pot : Pot) (n : Nat) : Prop where
  strlen : pot.cookiePot.strlen pot.start = some n
  le : n ≤ maxCookieLength
  within : 0 < pot.cookieIndex → pot.start + n + 1 ≤ pot.cookieIndex

theorem exists_atStart (sound : Sound pot) : ∃ n, AtStart pot n := by
  have nonneg := start_nonneg sound
  have index_le := sound.index_le
  by_cases positive : 0 < pot.cookieIndex
  · have lt := start_lt positive
    have last : pot.cookiePot (pot.start + (pot.cookieIndex - 1 - pot.start).toNat) = 0 := by
      rw [Int.toNat_of_nonneg (by omega), add_sub_cancel]
      exact sound.terminated positive
    obtain ⟨n, str, le⟩ := Memory.exists_strlen last (by
      unfold maxCookieLength Memory.addressSpace at *
      omega)
    exact ⟨n, str, by omega, fun _ => by omega⟩
  · have index_nonneg := sound.index_nonneg
    have start : pot.start = 0 := start_eq_zero sound (by omega)
    obtain ⟨k, bound, zero⟩ := sound.zero
    obtain ⟨n, str, le⟩ := Memory.exists_strlen (m := pot.cookiePot) (p := pot.start) (n := k)
      (by rwa [start, Int.zero_add]) (by
        unfold maxCookieLength Memory.addressSpace at *
        omega)
    exact ⟨n, str, by omega, fun positive' => absurd positive' positive⟩

def wanted (n len : Nat) : Nat := min (n + 1) len

theorem fortuneRead_first (sound : Sound pot) (string : AtStart pot n) (first : ppos ≤ 0) :
    fortuneRead pot ppos len room =
      some ⟨{ pot with
          nextFortune := pot.start + if wanted n len ≤ room then (wanted n len : Int) else 0 },
        toSsize len, 1, copyToUser pot.cookiePot pot.start (wanted n len) room⟩ := by
  have nonneg := start_nonneg sound
  have start_le := start_le sound
  have le := string.le
  have wanted_le : wanted n len ≤ n + 1 := Nat.min_le_left _ _
  have length : (if toSize (toInt (toSize (n + 1))) > len then toInt len
      else toInt (toSize (n + 1))) = wanted n len := by
    unfold wanted maxCookieLength toInt toSize at *
    split <;> omega
  have left : (copyToUser pot.cookiePot pot.start (wanted n len) room).left = 0 ↔
      wanted n len ≤ room := copyToUser_left
  unfold fortuneRead
  rw [if_neg (by omega), string.strlen, Option.map_some]
  dsimp only
  rw [length, toSize_eq (by omega) (by unfold maxCookieLength at le; omega), Int.toNat_natCast]
  simp only [left, ne_eq, ite_not]
  rw [toInt_eq]
  · unfold maxCookieLength at start_le le
    split <;> omega
  · unfold maxCookieLength at start_le le
    split <;> omega

theorem step_first (sound : Sound pot) (string : AtStart pot n) (first : ppos ≤ 0) :
    (component outside).step pot (.read ppos len room) =
      some ({ pot with
          nextFortune := pot.start + if wanted n len ≤ room then (wanted n len : Int) else 0 },
        .gave ⟨{ pot with
            nextFortune := pot.start + if wanted n len ≤ room then (wanted n len : Int) else 0 },
          toSsize len, 1, copyToUser pot.cookiePot pot.start (wanted n len) room⟩) := by
  show (fortuneRead pot ppos len room).map _ = _
  rw [fortuneRead_first sound string first]
  rfl

theorem step_past (past : 0 < ppos) : (component outside).step pot (.read ppos len room) =
    some (pot, .gave ⟨pot, 0, ppos, ⟨[], 0⟩⟩) := by
  show (fortuneRead pot ppos len room).map _ = _
  rw [fortuneRead, if_pos past]
  rfl

inductive Reads (pot : Pot) (ppos : Int) (len room : Nat) : Read → Prop
  | past (past : 0 < ppos) : Reads pot ppos len room ⟨pot, 0, ppos, ⟨[], 0⟩⟩
  | failed {n : Nat} (first : ppos ≤ 0) (string : AtStart pot n) (short : room < wanted n len) :
      Reads pot ppos len room ⟨{ pot with nextFortune := pot.start }, toSsize len, 1,
        copyToUser pot.cookiePot pot.start (wanted n len) room⟩
  | served {n : Nat} (first : ppos ≤ 0) (string : AtStart pot n) (fits : wanted n len ≤ room) :
      Reads pot ppos len room ⟨{ pot with nextFortune := pot.start + wanted n len }, toSsize len, 1,
        copyToUser pot.cookiePot pot.start (wanted n len) room⟩

theorem exists_fortuneRead (sound : Sound pot) (ppos : Int) (len room : Nat) :
    ∃ read, fortuneRead pot ppos len room = some read ∧ Reads pot ppos len room read := by
  by_cases past : 0 < ppos
  · exact ⟨_, if_pos past, .past past⟩
  · obtain ⟨n, string⟩ := exists_atStart sound
    have first := Int.not_lt.mp past
    have eq : fortuneRead pot ppos len room = _ := fortuneRead_first sound string first
    by_cases fits : wanted n len ≤ room
    · rw [if_pos fits] at eq
      exact ⟨_, eq, .served first string fits⟩
    · rw [if_neg fits, Int.add_zero] at eq
      exact ⟨_, eq, .failed first string (Nat.lt_of_not_le fits)⟩

theorem Sound.read {read : Read} (sound : Sound pot) (reads : Reads pot ppos len room read) :
    Sound read.pot := by
  have nonneg := start_nonneg sound
  cases reads with
  | past _ => exact sound
  | failed _ _ _ => exact { sound with next_nonneg := nonneg }
  | served _ _ _ => exact { sound with next_nonneg := Int.add_nonneg nonneg (Int.natCast_nonneg _) }

theorem exists_read (sound : Sound pot) (ppos : Int) (len room : Nat) :
    ∃ read, (component outside).step pot (.read ppos len room) = some (read.pot, .gave read) ∧
      Reads pot ppos len room read := by
  obtain ⟨read, eq, reads⟩ := exists_fortuneRead sound ppos len room
  refine ⟨read, ?_, reads⟩
  show (fortuneRead pot ppos len room).map _ = _
  rw [eq]
  rfl

theorem step_sound (sound : Sound pot) (op : Op) :
    ∃ next answer, (component outside).step pot op = some (next, answer) ∧ Sound next := by
  cases op with
  | write buf len => exact ⟨_, _, rfl, sound.write⟩
  | read ppos len room =>
      obtain ⟨read, step, reads⟩ := exists_read sound ppos len room
      exact ⟨read.pot, .gave read, step, sound.read reads⟩

theorem sound_of_step {next : Pot} {op : Op} {answer : Answer} (sound : Sound pot)
    (step : (component outside).step pot op = some (next, answer)) : Sound next := by
  obtain ⟨next', answer', step', sound'⟩ := @step_sound pot outside sound op
  rw [step'] at step
  cases step
  exact sound'

theorem sound (h : (component outside).Reachable pot) : Sound pot :=
  h.invariant Sound.fresh sound_of_step

end OsUnix.Fortune
