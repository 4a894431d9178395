import OsUnix.Kernel.Stdio

/-!
# Two streams over one descriptor

`main` of `6-semestr/lab5/1.c`, after the file has been opened and both streams have been given
their buffers.
-/

namespace OsUnix.SharedStreams
open Kernel

variable {α : Type*}

/-- `file` is what has not been read from the descriptor yet. -/
structure State (α : Type*) where
  fs1 : Stream α
  fs2 : Stream α
  file : List α
  flag1 : Int
  flag2 : Int
  out : List α
deriving DecidableEq

def State.start (file : List α) : State α where
  fs1 := ⟨[], false⟩
  fs2 := ⟨[], false⟩
  file
  flag1 := 1
  flag2 := 2
  out := []

/-- What `fscanf` returns. -/
def flag : Option α → Int
  | some _ => 1
  | none => -1

def State.iterate (size : Nat) (s : State α) : State α :=
  let (c₁, fs1, file) := s.fs1.next size s.file
  let (c₂, fs2, file) := s.fs2.next size file
  { fs1, fs2, file, flag1 := flag c₁, flag2 := flag c₂, out := s.out ++ c₁.toList ++ c₂.toList }

def State.Running (s : State α) : Prop := s.flag1 = 1 ∨ s.flag2 = 1

instance (s : State α) : Decidable s.Running :=
  inferInstanceAs (Decidable (s.flag1 = 1 ∨ s.flag2 = 1))

def loop (size : Nat) : Nat → State α → Option (State α)
  | 0, _ => none
  | n + 1, s => if s.Running then loop size n (s.iterate size) else some s

end OsUnix.SharedStreams
