import OsUnix.Fortune.Invariant

/-!
# Reads stream the pot

Between two writes the bytes that reads copy out follow each other around the pot. A copy that fails
does not advance the stream: what it has left at the user's address is copied once more.
-/

namespace OsUnix.Fortune
open Kernel

variable {pot : Pot} {outside : Memory} {len room n : Nat} {read : Read}

def stream (pot : Pot) (k : Nat) : UInt8 :=
  pot.cookiePot ((pot.start + k) % pot.cookieIndex)

/-- What a call has left at the user's address. -/
def Answer.bytes : Answer → List UInt8
  | .wrote _ => []
  | .gave read => read.copy.accesses.bytes

/-- The same, of the calls whose copy has succeeded. -/
def Answer.copied : Answer → List UInt8
  | .wrote _ => []
  | .gave read => if read.copy.left = 0 then read.copy.accesses.bytes else []

def Inside (pot : Pot) (read : Read) : Prop :=
  read.copy.accesses.Within 0 pot.cookieIndex ∧
    0 ≤ read.pot.nextFortune ∧ read.pot.nextFortune ≤ pot.cookieIndex

theorem wanted_le (string : AtStart pot n) (positive : 0 < pot.cookieIndex) (len : Nat) :
    pot.start + wanted n len ≤ pot.cookieIndex := by
  have within := string.within positive
  have le : wanted n len ≤ n + 1 := Nat.min_le_left _ _
  omega

theorem stream_advance {l : Nat} (le : pot.start + l ≤ pot.cookieIndex) :
    stream { pot with nextFortune := pot.start + l } = fun k => stream pot (l + k) := by
  funext k
  show pot.cookiePot _ = pot.cookiePot _
  congr 1
  simp only [Nat.cast_add, ← Int.add_assoc]
  rw [Pot.start]
  split
  · -- the read reached the end
    rename_i wraps
    have ends : pot.start + l = pot.cookieIndex := Int.le_antisymm le wraps
    rw [ends, Int.zero_add, Int.add_emod_left]
  · rfl

theorem slice_eq_stream {l : Nat} (sound : Sound pot) (le : pot.start + l ≤ pot.cookieIndex) :
    pot.cookiePot.slice pot.start l = (List.range l).map (stream pot) := by
  have nonneg := start_nonneg sound
  rw [Memory.slice_eq_map]
  apply List.map_congr_left
  intro k mem
  have below := List.mem_range.mp mem
  rw [stream, Int.emod_eq_of_lt (by omega) (by omega)]

structure Advances (pot : Pot) (read : Read) (l : Nat) : Prop where
  index : read.pot.cookieIndex = pot.cookieIndex
  copied : (Answer.gave read).copied = (List.range l).map (stream pot)
  rest : stream read.pot = fun k => stream pot (l + k)
  inside : Inside pot read

theorem exists_advances (sound : Sound pot) (positive : 0 < pot.cookieIndex)
    (reads : Reads pot 0 len room read) : ∃ l, Advances pot read l := by
  have nonneg := start_nonneg sound
  have lt := start_lt positive
  cases reads with
  | past past => exact absurd past (Int.lt_irrefl 0)
  | failed _ string short =>
      have le := wanted_le string positive len
      have stays := @stream_advance pot 0 (by omega)
      refine ⟨0, rfl, if_neg ?_, ?_, copyToUser_within.mono nonneg le, nonneg, lt.le⟩
      · rw [copyToUser_left]
        omega
      · simpa using stays
  | served _ string fits =>
      have le := wanted_le string positive len
      refine ⟨wanted _ len, rfl, ?_, stream_advance le,
        copyToUser_within.mono nonneg le, ?_, le⟩
      · exact (if_pos (copyToUser_left.mpr fits)).trans
          ((bytes_copyToUser fits).trans (slice_eq_stream sound le))
      · exact Int.add_nonneg nonneg (Int.natCast_nonneg _)

theorem exec_reads (sound : Sound pot) (positive : 0 < pot.cookieIndex) (reads : List (Nat × Nat)) :
    ∃ last answers, (component outside).exec pot (reads.map fun r => .read 0 r.1 r.2) =
        some (last, answers) ∧
      (∃ n, answers.flatMap Answer.copied = (List.range n).map (stream pot)) ∧
      ∀ read, .gave read ∈ answers → Inside pot read := by
  induction reads generalizing pot with
  | nil => exact ⟨pot, [], rfl, ⟨0, rfl⟩, fun _ mem => absurd mem List.not_mem_nil⟩
  | cons r rest ih =>
      obtain ⟨read, step, reads⟩ := @exists_read pot outside sound 0 r.1 r.2
      obtain ⟨l, advances⟩ := exists_advances sound positive reads
      have index := advances.index
      obtain ⟨last, answers, run, ⟨n, copied⟩, inside⟩ :=
        ih (sound.read reads) (by rw [index]; exact positive)
      refine ⟨last, .gave read :: answers, Component.exec_cons step run, ⟨l + n, ?_⟩, ?_⟩
      · rw [List.flatMap_cons, advances.copied, copied, advances.rest, List.range_add,
          List.map_append, List.map_map]
        rfl
      · intro other mem
        cases mem with
        | head => exact advances.inside
        | tail _ mem =>
            have later := inside other mem
            rw [Inside, index] at later
            exact later

/-- From any pot that has been written to, the bytes of the reads that succeed run around the pot,
and every byte read lies below `cookie_index`. -/
theorem reads_stream (outside : Memory) (pot : Pot) (h : (component outside).Reachable pot)
    (positive : 0 < pot.cookieIndex) (reads : List (Nat × Nat)) :
    ∃ last answers, (component outside).exec pot (reads.map fun r => .read 0 r.1 r.2) =
        some (last, answers) ∧
      (∃ n, answers.flatMap Answer.copied = (List.range n).map (stream pot)) ∧
      ∀ read, .gave read ∈ answers → Inside pot read :=
  exec_reads (sound h) positive reads

theorem reads_stream_short_read :
    ∃ last answers, (component 0).exec (fortuneWrite (Pot.fresh 0) [97, 98, 0] 3).pot
        ([(2, 9), (9, 0), (9, 9), (9, 9)].map fun r => .read 0 r.1 r.2) = some (last, answers) ∧
      (∃ n, answers.flatMap Answer.copied =
        (List.range n).map (stream (fortuneWrite (Pot.fresh 0) [97, 98, 0] 3).pot)) ∧
      ∀ read, .gave read ∈ answers → Inside (fortuneWrite (Pot.fresh 0) [97, 98, 0] 3).pot read :=
  reads_stream 0 _ ⟨[.write [97, 98, 0] 3], _, rfl⟩ (by decide) _

/-- `ab`, read into one byte of room and then into three: the `a` comes twice. -/
theorem bytes_repeat : (component 0).Reachable (fortuneWrite (Pot.fresh 0) [97, 98, 0] 3).pot ∧
    0 < (fortuneWrite (Pot.fresh 0) [97, 98, 0] 3).pot.cookieIndex ∧
    ∃ last answers, (component 0).exec (fortuneWrite (Pot.fresh 0) [97, 98, 0] 3).pot
        ([(3, 1), (3, 3)].map fun r => .read 0 r.1 r.2) = some (last, answers) ∧
      ¬ ∃ n, answers.flatMap Answer.bytes =
        (List.range n).map (stream (fortuneWrite (Pot.fresh 0) [97, 98, 0] 3).pot) := by
  refine ⟨⟨[.write [97, 98, 0] 3], _, rfl⟩, by decide, _, _, rfl, ?_⟩
  rintro ⟨n, same⟩
  change [97, 97, 98, 0] = _ at same
  have length : 4 = n := by simpa using congrArg List.length same
  subst length
  revert same
  decide

end OsUnix.Fortune
