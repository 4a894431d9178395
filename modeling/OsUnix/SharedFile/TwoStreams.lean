import OsUnix.SharedFile.Writers

/-!
# Two streams of one thread

`main` of `6-semestr/lab5/3.c` and `6-semestr/lab5/3_1.c`, which close their two streams in another
order.
-/

namespace OsUnix.SharedFile
open Kernel

structure Streams where
  fs1 : Output Nat
  fs2 : Output Nat
  file : List Nat
  /-- The sizes that `stat` has found. -/
  sizes : List Nat

namespace Streams

def stat (s : Streams) : Streams := { s with sizes := s.sizes ++ [s.file.length] }

def fopen1 : Streams := ⟨.opened, .opened, [], []⟩

def fopen2 (s : Streams) : Streams := { s with fs2 := .opened, file := [] }

def fprintf (size : Nat) (s : Streams) (c : Nat) : Streams :=
  if c % 2 ≠ 0 then
    let r := s.fs1.put size c s.file
    { s with fs1 := r.1, file := r.2 }
  else
    let r := s.fs2.put size c s.file
    { s with fs2 := r.1, file := r.2 }

def loop (size : Nat) (s : Streams) : Streams := (List.range' 97 26).foldl (fprintf size) s

def fclose1 (s : Streams) : Streams :=
  let r := s.fs1.flush s.file
  { s with fs1 := r.1, file := r.2 }

def fclose2 (s : Streams) : Streams :=
  let r := s.fs2.flush s.file
  { s with fs2 := r.1, file := r.2 }

def written (size : Nat) : Streams := (fopen1.stat.fopen2.stat).loop size

/-- `3.c` -/
def main (size : Nat) : Streams := (written size).fclose1.stat.fclose2.stat

/-- `3_1.c` -/
def main₁ (size : Nat) : Streams := (written size).fclose2.stat.fclose1.stat

variable {size : Nat} {s : Streams} {text₁ text₂ : List Nat}

def Level (size : Nat) (s : Streams) (text₁ text₂ : List Nat) : Prop :=
  Output.Level size s.fs1 s.fs2 text₁ text₂ s.file

theorem Level.fprintf (level : s.Level size text₁ text₂) (positive : 0 < size) {c : Nat}
    (odd : c % 2 = 1) :
    ((s.fprintf size c).fprintf size (c + 1)).Level size (text₁ ++ [c]) (text₂ ++ [c + 1]) := by
  have even : (c + 1) % 2 = 0 := by omega
  simp only [Streams.fprintf, odd, even]
  exact level.put positive

theorem Level.foldl (level : s.Level size text₁ text₂) (positive : 0 < size) {c : Nat}
    (odd : c % 2 = 1) (n : Nat) :
    ((List.range' c (2 * n)).foldl (Streams.fprintf size) s).Level size
      (text₁ ++ (List.range' c (2 * n)).filter (SharedFile.written 1))
      (text₂ ++ (List.range' c (2 * n)).filter (SharedFile.written 2)) := by
  induction n generalizing s text₁ text₂ c with
  | zero => simpa using level
  | succ n ih =>
      have even : ¬ (c + 1) % 2 = 1 := by omega
      have rest := ih (level.fprintf positive odd) (c := c + 2) (by omega)
      rw [List.append_assoc, List.append_assoc] at rest
      rw [Nat.mul_succ, List.range'_succ, List.range'_succ]
      simpa [SharedFile.written, odd, even] using rest

theorem level_written (positive : 0 < size) :
    (written size).Level size (letters 1) (letters 2) := by
  have start : (fopen1.stat.fopen2.stat).Level size [] [] := Output.Level.opened
  exact start.foldl positive (c := 97) rfl 13

theorem sizes_loop (size : Nat) (s : Streams) : (s.loop size).sizes = s.sizes := by
  rw [loop]
  induction List.range' 97 26 generalizing s with
  | nil => rfl
  | cons c rest ih =>
      rw [List.foldl_cons, ih, fprintf]
      split <;> rfl

theorem sizes_written (size : Nat) : (written size).sizes = [0, 0] := by
  rw [written, sizes_loop]
  rfl

theorem sizes_main : (main size).sizes =
    [0, 0, (written size).fclose1.file.length, (main size).file.length] := by
  simp [main, stat, fclose1, fclose2, sizes_written]

theorem sizes_main₁ : (main₁ size).sizes =
    [0, 0, (written size).fclose2.file.length, (main₁ size).file.length] := by
  simp [main₁, stat, fclose1, fclose2, sizes_written]

/-- Through buffers of any size `3.c` leaves what went to the second stream. `3_1.c` leaves the
whole buffers that the second stream has written over those of the first one, and behind them what
the first one had kept. -/
theorem last_close_keeps_tail (size : Nat) (positive : 0 < size) :
    (main size).file = letters 2 ∧
    (main₁ size).file =
      (letters 2).take (12 / size * size) ++ (letters 1).drop (12 / size * size) ∧
    (main size).sizes = [0, 0, 13, 13] ∧ (main₁ size).sizes = [0, 0, 13, 13] := by
  have level := level_written positive
  have offset₂ : (written size).fs2.offset = 12 / size * size :=
    level.blockwise₂.offset_eq level.gave₂
  have below : 12 / size * size ≤ 12 := Nat.div_mul_le_self 12 size
  obtain ⟨first, last⟩ := level.flush_both
  have between₁ : (written size).fclose1.file = _ := level.flush₁
  have between₂ : (written size).fclose2.file = letters 2 := level.flush₂
  have file : (main size).file = letters 2 := first
  have file₁ : (main₁ size).file = _ := last
  rw [← level.gave₁.drop_offset, level.offset_eq, offset₂] at between₁ file₁
  have length₁ : (letters 1).length = 13 := by decide
  have length₂ : (letters 2).length = 13 := by decide
  have whole : ((letters 2).take (12 / size * size) ++
      (letters 1).drop (12 / size * size)).length = 13 := by
    rw [List.length_append, List.length_take, List.length_drop, length₁, length₂]
    omega
  refine ⟨file, file₁, ?_, ?_⟩
  · rw [sizes_main, between₁, file, whole, length₂]
  · rw [sizes_main₁, between₂, file₁, whole, length₂]

theorem last_close_keeps_tail_five :
    (main₁ 5).file = [98, 100, 102, 104, 106, 108, 110, 112, 114, 116, 117, 119, 121] ∧
      (main₁ 5).sizes = [0, 0, 13, 13] := by
  obtain ⟨-, file, -, sizes⟩ := last_close_keeps_tail 5 (by decide)
  exact ⟨file.trans (by decide), sizes⟩

end Streams

end OsUnix.SharedFile
