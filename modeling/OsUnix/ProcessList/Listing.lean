import OsUnix.Kernel.Ring

/-!
# The processes in the log

`md_init` of `6-semestr/lab3/part1/md.c`, while the list of processes stays as it is.
-/

namespace OsUnix.ProcessList
open Function Kernel

variable {P : Type*} [DecidableEq P]

inductive Line
  | loaded
  | process (comm : String) (pid : Int) (parentComm : String) (parentPid : Int)
deriving DecidableEq, Repr

variable {tasks : P → Task P} {nextTask : P → P} {initTask current : P} {log : List Line}

end OsUnix.ProcessList
