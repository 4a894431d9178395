import OsUnix.Concurrency.System
import OsUnix.Kernel.Output

/-!
# Threads that write one file

`write_to_file` of `6-semestr/lab5/3_2.c` and `6-semestr/lab5/3_3.c`, which start the same threads
in another order. Every thread opens the file, writes half of the alphabet into its own buffer of
`size` bytes and closes the file. A byte is its code.
-/

namespace OsUnix.SharedFile
open Kernel Concurrency

inductive Local
  | fopen
  | statOpened (fs : Output Nat)
  | loop (c : Nat) (fs : Output Nat)
  | statClosed
  | returned
deriving DecidableEq, Repr

inductive Action
  | fopen | stat (stSize : Nat) | turn | fclose
deriving DecidableEq, Repr

def turn (size : Nat) (filenum : Int) (c : Nat) (fs : Output Nat) (file : List Nat) :
    Output Nat × List Nat :=
  let r := if c % 2 ≠ 0 ∧ filenum = 1 then fs.put size c file else (fs, file)
  if ¬ c % 2 ≠ 0 ∧ filenum = 2 then r.1.put size c r.2 else r

def writeToFile (size : Nat) (filenum : Int) (file : List Nat) :
    Local → Option (List Nat × Local × Action)
  | .fopen => some ([], .statOpened .opened, .fopen)
  | .statOpened fs => some (file, .loop 97 fs, .stat file.length)
  | .loop c fs =>
      if c ≤ 122 then
        let r := turn size filenum c fs file
        some (r.2, .loop (c + 1) r.1, .turn)
      else some ((fs.flush file).2, .statClosed, .fclose)
  | .statClosed => some (file, .returned, .stat file.length)
  | .returned => none

variable {ι : Type*}

def system (size : Nat) (filenum : ι → Int) (file : List Nat) :
    System ι (List Nat) Local Action where
  shared₀ := file
  locals₀ _ := .fopen
  step k := writeToFile size (filenum k)

abbrev State (ι : Type*) := Config ι (List Nat) Local Action

def written (filenum : Int) (c : Nat) : Bool :=
  (c % 2 ≠ 0 ∧ filenum = 1) ∨ (¬ c % 2 ≠ 0 ∧ filenum = 2)

def lettersBefore (filenum : Int) (c : Nat) : List Nat :=
  (List.range' 97 (c - 97)).filter (written filenum)

def letters (filenum : Int) : List Nat := lettersBefore filenum 123

variable {size : Nat} {filenum : Int} {c : Nat} {fs : Output Nat} {file : List Nat}

theorem lettersBefore_succ (started : 97 ≤ c) : lettersBefore filenum (c + 1) =
    lettersBefore filenum c ++ if written filenum c = true then [c] else [] := by
  have next : c + 1 - 97 = c - 97 + 1 := by omega
  have last : 97 + 1 * (c - 97) = c := by omega
  rw [lettersBefore, next, List.range'_concat, List.filter_append, last]
  split
  · rename_i here
    rw [List.filter_singleton, here]
    rfl
  · rename_i other
    rw [List.filter_singleton, Bool.not_eq_true _ |>.mp other]
    rfl

theorem turn_eq (size : Nat) (filenum : Int) (c : Nat) (fs : Output Nat) (file : List Nat) :
    turn size filenum c fs file =
      if written filenum c = true then fs.put size c file else (fs, file) := by
  by_cases odd : c % 2 ≠ 0 <;> by_cases first : filenum = 1 <;> by_cases second : filenum = 2 <;>
    simp_all [turn, written]

theorem letters_begin (last : c ≤ 123) : lettersBefore filenum c <+: letters filenum := by
  have split : List.range' 97 26 =
      List.range' 97 (c - 97) ++ List.range' (97 + (c - 97)) (123 - c) ∨ c < 97 := by
    by_cases started : 97 ≤ c
    · left
      rw [List.range'_append_1]
      congr 1
      omega
    · exact .inr (Nat.lt_of_not_le started)
  rcases split with split | early
  · rw [letters, lettersBefore, lettersBefore, split, List.filter_append]
    exact List.prefix_append _ _
  · rw [lettersBefore, Nat.sub_eq_zero_of_le early.le]
    exact List.nil_prefix

inductive Move (size : Nat) (filenum : Int) (file : List Nat) :
    Local → List Nat → Local → Action → Prop
  | fopen : Move size filenum file .fopen [] (.statOpened .opened) .fopen
  | statOpened {fs : Output Nat} :
      Move size filenum file (.statOpened fs) file (.loop 97 fs) (.stat file.length)
  | keep {c : Nat} {fs : Output Nat} (more : c ≤ 122) (other : written filenum c = false) :
      Move size filenum file (.loop c fs) file (.loop (c + 1) fs) .turn
  | put {c : Nat} {fs : Output Nat} (more : c ≤ 122) (mine : written filenum c = true) :
      Move size filenum file (.loop c fs) (fs.put size c file).2
        (.loop (c + 1) (fs.put size c file).1) .turn
  | fclose {c : Nat} {fs : Output Nat} (last : ¬ c ≤ 122) :
      Move size filenum file (.loop c fs) (fs.flush file).2 .statClosed .fclose
  | statClosed : Move size filenum file .statClosed file .returned (.stat file.length)

theorem move_of_step {file' : List Nat} {l l' : Local} {a : Action}
    (step : writeToFile size filenum file l = some (file', l', a)) :
    Move size filenum file l file' l' a := by
  cases l with
  | fopen => cases step; exact .fopen
  | statOpened fs => cases step; exact .statOpened
  | loop c fs =>
      by_cases more : c ≤ 122
      · simp only [writeToFile, more, ↓reduceIte, turn_eq] at step
        by_cases mine : written filenum c = true
        · rw [if_pos mine] at step
          cases step
          exact .put more mine
        · rw [if_neg mine] at step
          cases step
          exact .keep more (Bool.not_eq_true _ |>.mp mine)
      · simp only [writeToFile, more, ↓reduceIte] at step
        cases step
        exact .fclose more
  | statClosed => cases step; exact .statClosed
  | returned => cases step

def Local.Given (filenum : Int) : Local → Prop
  | .statOpened fs => fs.Gave []
  | .loop c fs => 97 ≤ c ∧ c ≤ 123 ∧ fs.Gave (lettersBefore filenum c)
  | _ => True

theorem Move.given {file' : List Nat} {l l' : Local} {a : Action}
    (move : Move size filenum file l file' l' a) (given : l.Given filenum) : l'.Given filenum := by
  cases move with
  | fopen => exact Output.gave_opened
  | statOpened => exact ⟨Nat.le_refl _, by decide, given⟩
  | keep more other =>
      obtain ⟨started, -, gave⟩ := given
      refine ⟨by omega, by omega, ?_⟩
      rw [lettersBefore_succ started, other]
      simpa using gave
  | put more mine =>
      obtain ⟨started, -, gave⟩ := given
      refine ⟨by omega, by omega, ?_⟩
      rw [lettersBefore_succ started, if_pos mine]
      exact gave.put
  | fclose last => trivial
  | statClosed => trivial

variable {filenums : ι → Int} {s t : State ι} {k : ι} [DecidableEq ι]

theorem given (h : (system size filenums file).Reachable s) (k : ι) :
    (s.locals k).Given (filenums k) :=
  h.each (Q := fun k l => l.Given (filenums k)) (fun _ => trivial)
    (fun step given => (move_of_step step).given given) k

theorem next_cases (h : (system size filenums file).next s k = some t) :
    ∃ file' l a, Move size (filenums k) s.shared (s.locals k) file' l a ∧
      t = s.move k file' l a := by
  obtain ⟨file', l, a, moves, rfl⟩ := System.next_eq_some.mp h
  exact ⟨file', l, a, move_of_step moves, rfl⟩

end OsUnix.SharedFile
