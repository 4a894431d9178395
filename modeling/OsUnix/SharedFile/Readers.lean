import OsUnix.Concurrency.Counting

/-!
# Readers of one file

`6-semestr/lab5/2.c` and `6-semestr/lab5/2_1.c`: every descriptor has been opened for itself, so
that each of them reads the whole file.
-/

namespace OsUnix.SharedFile
open Concurrency

variable {α : Type*}

/-- `c` holds whatever it holds before the first read. -/
structure Turns (α : Type*) where
  fd1 : List α
  fd2 : List α
  c : α
  breakFlag : Int
  out : List α

namespace Turns

def opened (c : α) (file : List α) : Turns α := ⟨file, file, c, 1, []⟩

def read1 (s : Turns α) : Turns α :=
  match s.fd1 with
  | [] => { s with breakFlag := 0 }
  | c :: rest => { s with fd1 := rest, c }

def read2 (s : Turns α) : Turns α :=
  match s.fd2 with
  | [] => { s with breakFlag := 0 }
  | c :: rest => { s with fd2 := rest, c }

def write (s : Turns α) : Turns α := { s with out := s.out ++ [s.c] }

def loop : Nat → Turns α → Option (Turns α)
  | 0, _ => none
  | n + 1, s => if s.breakFlag ≠ 0 then loop n s.read1.write.read2.write else some s

/-- The loop ends, having printed each byte twice and the last one twice more: it prints before it
looks at what the reads have answered. -/
theorem doubles_and_repeats (c : α) (file : List α) :
    ∃ n t, loop n (opened c file) = some t ∧
      t.out = file.flatMap (fun x => [x, x]) ++ [file.getLast?.getD c, file.getLast?.getD c] := by
  suffices ends : ∀ (c : α) (out : List α), ∃ n t, loop n ⟨file, file, c, 1, out⟩ = some t ∧
      t.out = out ++ (file.flatMap (fun x => [x, x]) ++
        [file.getLast?.getD c, file.getLast?.getD c]) by
    simpa [opened] using ends c []
  induction file with
  | nil => exact fun c out => ⟨2, ⟨[], [], c, 0, (out ++ [c]) ++ [c]⟩, rfl, by simp⟩
  | cons x rest ih =>
      intro c out
      obtain ⟨n, t, run, printed⟩ := ih x ((out ++ [x]) ++ [x])
      refine ⟨n + 1, t, run, ?_⟩
      rw [printed, List.getLast?_cons]
      simp

end Turns

inductive Reader (α : Type*)
  | read (rest : List α)
  | write (c : α) (rest : List α)
  | sleep
  | returned
deriving DecidableEq

inductive ReadAction (α : Type*)
  | read (n : Nat) | write (c : α) | sleep
deriving DecidableEq

def readFile (out : List α) : Reader α → Option (List α × Reader α × ReadAction α)
  | .read [] => some (out, .sleep, .read 0)
  | .read (c :: rest) => some (out, .write c rest, .read 1)
  | .write c rest => some (out ++ [c], .read rest, .write c)
  | .sleep => some (out, .returned, .sleep)
  | .returned => none

def readers (ι : Type*) (file : List α) : System ι (List α) (Reader α) (ReadAction α) where
  shared₀ := []
  locals₀ _ := .read file
  step _ := readFile

variable {ι : Type*} [DecidableEq ι] {file out : List α} {k : ι} {w : List (ι × α)}
  {s t : Config ι (List α) (Reader α) (ReadAction α)}

def share (k : ι) (w : List (ι × α)) : List α := (w.filter (·.1 = k)).map Prod.snd

theorem share_append_self (c : α) : share k (w ++ [(k, c)]) = share k w ++ [c] := by
  simp [share]

theorem share_append_of_ne {j : ι} (c : α) (other : j ≠ k) :
    share j (w ++ [(k, c)]) = share j w := by
  simp [share, other.symm]

theorem share_cons_self (c : α) : share k ((k, c) :: w) = c :: share k w := by
  simp [share]

theorem share_cons_of_ne {j : ι} (c : α) (other : j ≠ k) : share j ((k, c) :: w) = share j w := by
  simp [share, other.symm]

def Reader.pending : Reader α → List α
  | .read rest => rest
  | .write c rest => c :: rest
  | .sleep | .returned => []

theorem printed_shuffled (h : (readers ι file).Reachable s) : ∃ w : List (ι × α),
    w.map Prod.snd = s.shared ∧ ∀ k, share k w ++ (s.locals k).pending = file := by
  apply h.invariant (I := fun s => ∃ w : List (ι × α),
    w.map Prod.snd = s.shared ∧ ∀ k, share k w ++ (s.locals k).pending = file)
  · exact ⟨[], rfl, fun _ => rfl⟩
  · rintro s k t ⟨w, out, whole⟩ next
    obtain ⟨g, l, a, step, rfl⟩ := System.next_eq_some.mp next
    have own := whole k
    have keep (same : l.pending = (s.locals k).pending) (j : ι) :
        share j w ++ (Function.update s.locals k l j).pending = file := by
      by_cases eq : j = k
      · subst eq
        rw [Function.update_self, same, own]
      · rw [Function.update_of_ne eq, whole j]
    generalize before : s.locals k = l₀ at step own keep
    cases l₀ with
    | read rest =>
        cases rest with
        | nil => cases step; exact ⟨w, out, keep rfl⟩
        | cons c rest => cases step; exact ⟨w, out, keep rfl⟩
    | write c rest =>
        cases step
        refine ⟨w ++ [(k, c)], by simp [out], fun j => ?_⟩
        rw [Config.move_locals]
        by_cases eq : j = k
        · subst eq
          rw [Function.update_self, share_append_self, ← own]
          simp [Reader.pending]
        · rw [Function.update_of_ne eq, share_append_of_ne c eq, whole j]
    | sleep => cases step; exact ⟨w, out, keep rfl⟩
    | returned => cases step

theorem exists_printed (w : List (ι × α)) (ready : ∀ k, s.locals k = .read (share k w)) :
    ∃ t, (readers ι file).Run s t ∧ t.shared = s.shared ++ w.map Prod.snd ∧
      ∀ k, t.locals k = .read [] := by
  induction w generalizing s with
  | nil => exact ⟨s, .refl, by simp, ready⟩
  | cons e w ih =>
      obtain ⟨k, c⟩ := e
      have own := ready k
      rw [share_cons_self] at own
      obtain ⟨t, run, shared, at_k, others, -⟩ :=
        System.exists_soloRun (M := readers ι file) (n := 2) rfl own rfl
      obtain ⟨u, later, printed, done⟩ := ih (s := t) fun j => by
        by_cases eq : j = k
        · rw [eq, at_k]
        · rw [others j eq, ready j, share_cons_of_ne c eq]
      exact ⟨u, run.run.trans later, by rw [printed, shared]; simp, done⟩

def Reader.rank : Reader α → Nat
  | .read rest => 2 * rest.length + 2
  | .write _ rest => 2 * rest.length + 3
  | .sleep => 1
  | .returned => 0

theorem rank_lt {l l' : Reader α} {g g' : List α} {a : ReadAction α}
    (step : readFile g l = some (g', l', a)) : l'.rank < l.rank := by
  cases l with
  | read rest =>
      cases rest with
      | nil => cases step; simp [Reader.rank]
      | cons c rest => cases step; simp [Reader.rank]; omega
  | write c rest => cases step; simp [Reader.rank]
  | sleep => cases step; simp [Reader.rank]
  | returned => cases step

theorem shared_of_run (run : (readers ι file).Run s t) (done : ∀ k, (s.locals k).pending = []) :
    t.shared = s.shared ∧ ∀ k, (t.locals k).pending = [] := by
  induction run with
  | refl => exact ⟨rfl, done⟩
  | @tail u v _ last ih =>
      obtain ⟨shared, done⟩ := ih
      obtain ⟨k, last⟩ := last
      obtain ⟨g, l, a, step, rfl⟩ := System.next_eq_some.mp last
      suffices same : g = u.shared ∧ l.pending = [] from
        ⟨same.1.trans shared,
          (Function.forall_update_iff u.locals (fun _ (l : Reader α) => l.pending = [])).mpr
            ⟨same.2, fun j _ => done j⟩⟩
      have own := done k
      generalize u.locals k = l₀ at step own
      cases l₀ with
      | read rest =>
          obtain rfl : rest = [] := own
          cases step
          exact ⟨rfl, rfl⟩
      | write c rest => cases own
      | sleep => cases step; exact ⟨rfl, rfl⟩
      | returned => cases step

/-- The texts that can stand on the standard output when all threads have returned are the ones in
which the file can be found once for each thread, interleaved. -/
theorem outputs_are_shuffles (ι : Type*) [DecidableEq ι] [Fintype ι] (file out : List α) :
    (∃ s, (readers ι file).Reachable s ∧ (readers ι file).Terminal s ∧ s.shared = out) ↔
      ∃ w : List (ι × α), w.map Prod.snd = out ∧ ∀ k, share k w = file := by
  constructor
  · rintro ⟨s, reach, ended, rfl⟩
    obtain ⟨w, printed, whole⟩ := printed_shuffled reach
    refine ⟨w, printed, fun k => ?_⟩
    have stuck : readFile s.shared (s.locals k) = none := Option.map_eq_none_iff.mp (ended k)
    have own := whole k
    generalize s.locals k = l at stuck own
    cases l with
    | returned => simpa [Reader.pending] using own
    | read rest => cases rest <;> cases stuck
    | write c rest => cases stuck
    | sleep => cases stuck
  · rintro ⟨w, rfl, whole⟩
    obtain ⟨t, run, printed, done⟩ : ∃ t, (readers ι file).Run (readers ι file).init t ∧ _ :=
      exists_printed w fun k => by rw [whole k]; rfl
    obtain ⟨u, later, ended⟩ := System.exists_terminal (M := readers ι file)
      (r := fun s => ∑ k, (s.locals k).rank)
      (fun {s k t} _ next => by
        obtain ⟨g, l, a, step, rfl⟩ := System.next_eq_some.mp next
        have total := sum_update Reader.rank s.locals k l
        have own := rank_lt step
        simp only [Config.move_locals]
        omega) run
    have kept := (shared_of_run later fun k => by rw [done k]; rfl).1
    exact ⟨u, run.trans later, ended, by rw [kept, printed]; simp [readers]⟩

end OsUnix.SharedFile
