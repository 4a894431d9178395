import OsUnix.Kernel.FileSystem

/-!
# The walk over a directory tree

`dopath` and `counter` of `6-semestr/lab2/main.c`.
-/

namespace OsUnix.DirWalk
open Kernel

inductive FtwType
  | f | d | dnr | ns
  deriving DecidableEq, Repr

structure Reply (σ : Type) where
  ret : Int
  out : List (List UInt8)
  err : List String
  state : σ

/-- `statptr` is `none` where `lstat` has not filled it. -/
abbrev Handler (σ : Type) := Filename → Option Kind → FtwType → σ → Reply σ

structure Counters where
  nreg : Nat
  ndir : Nat
  nblk : Nat
  nchr : Nat
  nfifo : Nat
  nslink : Nat
  nsock : Nat
  deriving DecidableEq, Repr

def Counters.zero : Counters := ⟨0, 0, 0, 0, 0, 0, 0⟩

/-- The times at which a system call fails, whatever its argument. -/
structure Failures where
  lstat : Nat → Bool
  opendir : Nat → Bool
  chdir : Nat → Bool
  closedir : Nat → Bool

def steady (closing : Nat → Bool) : Failures where
  lstat _ := false
  opendir _ := false
  chdir _ := false
  closedir := closing

/-- What the walk has done, in order. A `source` is the directory that a name was read from, and a
time is the one at which `chdir` is called. -/
inductive Event
  | lookup (filename : Filename) (depth : Nat) (source : Option Location) (cwd : Location)
  | listing (filename : Filename) (called location : Location) (names : List Filename)
      (entering : Nat)
  | returned (filename : Filename) (called cwd : Location) (chdirs : Option (Nat × Nat))
  deriving DecidableEq

structure World (σ : Type) where
  cwd : Location
  now : Nat
  out : List (List UInt8)
  err : List String
  state : σ
  -- not in the program
  log : List Event

section calls

variable {σ : Type} (fs : FileSystem) (fails : Failures) (func : Handler σ)

def lstat (filename : Filename) (w : World σ) : Option Kind × World σ :=
  (if fails.lstat w.now then none else (fs.target w.cwd filename).kind,
    { w with now := w.now + 1 })

def opendir (filename : Filename) (w : World σ) : Option (Location × List Filename) × World σ :=
  (if fails.opendir w.now then none
    else (fs.opened w.cwd filename).map fun dir => (dir.1, dir.2.names),
    { w with now := w.now + 1 })

/-- The working directory after a `chdir` whose result is not looked at. -/
def moved (now : Nat) (filename : Filename) (cwd : Location) : Location :=
  if fails.chdir now then cwd else (fs.entered cwd filename).getD cwd

def chdir (filename : Filename) (w : World σ) : World σ :=
  { w with cwd := moved fs fails w.now filename w.cwd, now := w.now + 1 }

def closedir (w : World σ) : World σ :=
  { w with
    err := if fails.closedir w.now then w.err ++ ["Невозможно закрыть каталог"] else w.err
    now := w.now + 1 }

def callFunc (filename : Filename) (stat : Option Kind) (type : FtwType) (w : World σ) :
    Int × World σ :=
  let reply := func filename stat type w.state
  (reply.ret, { w with
    out := w.out ++ reply.out
    err := w.err ++ reply.err
    state := reply.state })

def indent (depth : Nat) : List (List UInt8) := List.replicate depth [124, 9]

/-- The loop over `readdir`; it stops when `visit` is still running. -/
def readEntries (visit : Filename → World σ → Option Int × World σ) :
    List Filename → Int → World σ → Option Int × World σ
  | [], ret, w => (some ret, w)
  | name :: names, ret, w =>
      if ret ≠ 0 then (some ret, w)
      else if name ≠ dot ∧ name ≠ dotdot then
        match visit name w with
        | (none, w) => (none, w)
        | (some ret, w) => readEntries visit names ret w
      else readEntries visit names ret w

def World.record (event : Event) (w : World σ) : World σ := { w with log := w.log ++ [event] }

def leave (filename : Filename) (called : Location) (chdirs : Option (Nat × Nat))
    (result : Int × World σ) : Option Int × World σ :=
  (some result.1, result.2.record (.returned filename called result.2.cwd chdirs))

/-- `none` is the result of a call that is still running when the fuel is used up. -/
def dopath : Nat → Option Location → Filename → Nat → World σ → Option Int × World σ
  | 0, source, filename, depth, w => (none, w.record (.lookup filename depth source w.cwd))
  | fuel + 1, source, filename, depth, w =>
      let called := w.cwd
      let w := w.record (.lookup filename depth source called)
      match lstat fs fails filename w with
      | (none, w) => leave filename called none (callFunc func filename none .ns w)
      | (some mode, w) =>
          let w := { w with out := w.out ++ indent depth }
          if mode ≠ .dir then
            leave filename called none (callFunc func filename (some mode) .f w)
          else
            match callFunc func filename (some mode) .d w with
            | (ret, w) =>
                if ret ≠ 0 then leave filename called none (ret, w)
                else match opendir fs fails filename w with
                  | (none, w) =>
                      leave filename called none (callFunc func filename (some mode) .dnr w)
                  | (some (location, names), w) =>
                      let entering := w.now
                      let w := w.record (.listing filename called location names entering)
                      match readEntries
                          (fun name w => dopath fuel (some location) name (depth + 1) w)
                          names ret (chdir fs fails filename w) with
                      | (none, w) => (none, w)
                      | (some ret, w) =>
                          leave filename called (some (entering, w.now))
                            (ret, closedir fails (chdir fs fails dotdot w))

theorem readEntries_stop {visit : Filename → World σ → Option Int × World σ} {ret : Int}
    (nonzero : ret ≠ 0) (names : List Filename) (w : World σ) :
    readEntries visit names ret w = (some ret, w) := by
  cases names with
  | nil => rfl
  | cons name names => exact if_pos nonzero

section steady

variable {fs : FileSystem} {closing : Nat → Bool} (filename : Filename) (w : World σ)

theorem lstat_steady : lstat fs (steady closing) filename w =
    ((fs.target w.cwd filename).kind, { w with now := w.now + 1 }) := rfl

theorem opendir_steady : opendir fs (steady closing) filename w =
    ((fs.opened w.cwd filename).map fun dir => (dir.1, dir.2.names),
      { w with now := w.now + 1 }) := rfl

theorem chdir_steady : chdir fs (steady closing) filename w =
    { w with cwd := (fs.entered w.cwd filename).getD w.cwd, now := w.now + 1 } := rfl

end steady

end calls

def entryLine (filename : Filename) (ending : List UInt8) : List UInt8 :=
  "-- ".toUTF8.toList ++ filename ++ ending

def counter : Handler Counters := fun pathname stat type counters =>
  match type with
  | .f =>
      let line := entryLine pathname [10]
      match stat with
      | some .reg => ⟨0, [line], [], { counters with nreg := counters.nreg + 1 }⟩
      | some .blk => ⟨0, [line], [], { counters with nblk := counters.nblk + 1 }⟩
      | some .chr => ⟨0, [line], [], { counters with nchr := counters.nchr + 1 }⟩
      | some .fifo => ⟨0, [line], [], { counters with nfifo := counters.nfifo + 1 }⟩
      | some .lnk => ⟨0, [line], [], { counters with nslink := counters.nslink + 1 }⟩
      | some .sock => ⟨0, [line], [], { counters with nsock := counters.nsock + 1 }⟩
      | some .dir => ⟨-1, [line], ["Католог имеет тип FTW_F"], counters⟩
      | none => ⟨0, [line], [], counters⟩
  | .d => ⟨0, [entryLine pathname [47, 10]], [], { counters with ndir := counters.ndir + 1 }⟩
  | .dnr => ⟨-1, [], ["К одному из каталогов закрыт доступ."], counters⟩
  | .ns => ⟨-1, [], ["Ошибка функции stat."], counters⟩

def start {σ : Type} (cwd : Location) (state : σ) : World σ := ⟨cwd, 0, [], [], state, []⟩

end OsUnix.DirWalk
