import OsUnix.Fortune.Invariant

/-!
# What a read reports

`fortune_read` returns the length that it was asked for, whatever it has copied.
-/

namespace OsUnix.Fortune
open Kernel

variable {pot : Pot} {outside : Memory} {ppos : Int} {len room n : Nat} {read : Read}

def maxErrno : Int := 4095

def IsError (ret : Int) : Prop := -maxErrno ≤ ret ∧ ret < 0

def Read.told (read : Read) : Int := max read.ret 0

structure Truthful (pot : Pot) (ppos : Int) (read : Read) : Prop where
  ret : read.ret = read.copy.accesses.length ∨ read.copy.accesses = [] ∧ IsError read.ret
  advance : read.pot.nextFortune = (if 0 < ppos then pot.nextFortune else pot.start) + read.told

/-- No string ends in the bytes asked for but the last, and the user's buffer takes all of them - or
nothing can be copied, and the length asked for is an error's code as a `size_t`. -/
def Whole (pot : Pot) (len room : Nat) : Prop :=
  (0 ∉ pot.cookiePot.slice pot.start (len - 1) ∧ len ≤ room) ∨
    (room = 0 ∧ 2 ^ 64 - maxErrno ≤ len)

theorem length_copyToUser (m : Memory) (p : Int) (len room : Nat) :
    (copyToUser m p len room).accesses.length = min len room := by
  rw [← @Memory.length_slice m p (min len room), ← Memory.bytes_load, Accesses.bytes,
    List.length_map]
  rfl

theorem zero_not_mem_slice (string : AtStart pot n) :
    0 ∉ pot.cookiePot.slice pot.start (len - 1) ↔ len ≤ n + 1 := by
  obtain ⟨-, zero, before⟩ := Memory.strlen_eq_some.mp string.strlen
  constructor
  · intro free
    by_contra long
    have byte := @Memory.getElem?_slice pot.cookiePot pot.start (len - 1) n (by omega)
    rw [zero] at byte
    exact free (List.mem_of_getElem? byte)
  · intro le mem
    obtain ⟨k, below, eq⟩ := List.getElem_of_mem mem
    rw [Memory.getElem_slice] at eq
    rw [Memory.length_slice] at below
    exact before k (by omega) eq

theorem truthful_past (past : 0 < ppos) : Truthful pot ppos ⟨pot, 0, ppos, ⟨[], 0⟩⟩ where
  ret := .inl rfl
  advance := by
    rw [if_pos past]
    exact (Int.add_zero _).symm

theorem truthful_served (size : len < 2 ^ 64) (first : ppos ≤ 0) (string : AtStart pot n)
    (fits : wanted n len ≤ room) :
    Truthful pot ppos ⟨{ pot with nextFortune := pot.start + wanted n len }, toSsize len, 1,
      copyToUser pot.cookiePot pot.start (wanted n len) room⟩ ↔ len ≤ n + 1 := by
  have le := string.le
  have copied := length_copyToUser pot.cookiePot pot.start (wanted n len) room
  rw [Nat.min_eq_left fits] at copied
  constructor
  · rintro ⟨same | ⟨nothing, -⟩, -⟩
    · rw [copied] at same
      unfold wanted toSsize maxCookieLength at *
      dsimp only at same
      omega
    · rw [nothing] at copied
      unfold wanted at copied
      simp only [List.length_nil] at copied
      omega
  · intro short
    have asked : wanted n len = len := Nat.min_eq_right short
    have ret : toSsize len = len := toSsize_eq (by omega) (by unfold maxCookieLength at le; omega)
    refine ⟨.inl ?_, ?_⟩
    · show toSsize len = _
      rw [copied, ret, asked]
    · show pot.start + (wanted n len : Int) = _ + max (toSsize len) 0
      rw [if_neg (Int.not_lt.mpr first), ret, asked, Int.max_eq_left (Int.natCast_nonneg len)]

theorem truthful_failed (size : len < 2 ^ 64) (first : ppos ≤ 0) (string : AtStart pot n)
    (short : room < wanted n len) :
    Truthful pot ppos ⟨{ pot with nextFortune := pot.start }, toSsize len, 1,
      copyToUser pot.cookiePot pot.start (wanted n len) room⟩ ↔
        room = 0 ∧ 2 ^ 64 - maxErrno ≤ len := by
  have le := string.le
  have copied := length_copyToUser pot.cookiePot pot.start (wanted n len) room
  rw [Nat.min_eq_right (Nat.le_of_lt short)] at copied
  have below : room < len := Nat.lt_of_lt_of_le short (Nat.min_le_right _ _)
  have small : room < n + 1 := Nat.lt_of_lt_of_le short (Nat.min_le_left _ _)
  constructor
  · rintro ⟨same | ⟨nothing, error⟩, -⟩
    · rw [copied] at same
      unfold toSsize maxCookieLength at *
      dsimp only at same
      omega
    · rw [nothing] at copied
      obtain ⟨lower, negative⟩ := error
      refine ⟨copied.symm, ?_⟩
      unfold toSsize maxErrno at *
      dsimp only at lower negative
      omega
  · rintro ⟨none, error⟩
    have ret : toSsize len = len - 2 ^ 64 := by
      unfold toSsize maxErrno at *
      omega
    have negative : toSsize len < 0 := by omega
    refine ⟨.inr ⟨List.length_eq_zero_iff.mp (copied.trans none), ?_, negative⟩, ?_⟩
    · show -maxErrno ≤ toSsize len
      omega
    · show pot.start = _ + max (toSsize len) 0
      rw [if_neg (Int.not_lt.mpr first), Int.max_eq_right (Int.le_of_lt negative), Int.add_zero]

theorem exists_truthful_iff (sound : Sound pot) (size : len < 2 ^ 64) (ppos : Int) (room : Nat) :
    ∃ read, fortuneRead pot ppos len room = some read ∧
      (Truthful pot ppos read ↔ 0 < ppos ∨ Whole pot len room) := by
  obtain ⟨read, eq, reads⟩ := exists_fortuneRead sound ppos len room
  refine ⟨read, eq, ?_⟩
  cases reads with
  | past past => exact iff_of_true (truthful_past past) (.inl past)
  | @failed n first string short =>
      rw [truthful_failed size first string short, Whole, zero_not_mem_slice string]
      unfold wanted at short
      omega
  | @served n first string fits =>
      rw [truthful_served size first string fits, Whole, zero_not_mem_slice string]
      unfold wanted maxErrno at *
      omega

/-- A read reports what it has transferred exactly when all the bytes asked for are copied. -/
theorem truthful_iff (h : (component outside).Reachable pot) (size : len < 2 ^ 64) (ppos : Int)
    (room : Nat) : ∃ read, fortuneRead pot ppos len room = some read ∧
      (Truthful pot ppos read ↔ 0 < ppos ∨ Whole pot len room) :=
  exists_truthful_iff (sound h) size ppos room

theorem truthful_one : ∃ read, fortuneRead (.fresh 0) 0 1 1 = some read ∧
    Truthful (.fresh 0) 0 read := by
  obtain ⟨read, eq, truthful⟩ := truthful_iff (@Component.Reachable.start _ _ _ (component 0))
    (by decide : 1 < 2 ^ 64) 0 1
  exact ⟨read, eq, truthful.mpr (.inr (.inl ⟨List.not_mem_nil, Nat.le_refl 1⟩))⟩

theorem truthful_fails : (component 0).Reachable (.fresh 0) ∧
    ∃ read, fortuneRead (.fresh 0) 0 100 100 = some read ∧ ¬ Truthful (.fresh 0) 0 read := by
  refine ⟨.start, ?_⟩
  obtain ⟨read, eq, truthful⟩ := exists_truthful_iff (@Sound.fresh 0) (by decide : 100 < 2 ^ 64)
    0 100
  refine ⟨read, eq, fun told => ?_⟩
  rcases truthful.mp told with past | ⟨free, -⟩ | ⟨none, -⟩
  · exact absurd past (by decide)
  · exact free (by decide)
  · exact absurd none (by decide)

end OsUnix.Fortune
