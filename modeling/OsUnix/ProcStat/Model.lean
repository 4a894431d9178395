import OsUnix.Kernel.Decimal
import OsUnix.Kernel.Strtok

/-!
# The fields of /proc/<pid>/stat

`print_fields` of `6-semestr/lab4/part1/1.c` and what calls it. A file is the bytes that are read
from it.
-/

namespace OsUnix.ProcStat
open Kernel

def bufSize : Nat := 0x100

def space : UInt8 := 32

structure Line where
  field : String
  value : List UInt8
deriving DecidableEq

/-- `fprintf(f, "%-22s %s\n", *pfield, value)` -/
def Line.text (line : Line) : List UInt8 :=
  let field := line.field.toUTF8.toList
  field ++ List.replicate (22 - field.length) space ++ [space] ++ line.value ++ [10]

def printLines : List String → List UInt8 → List Line
  | [], _ => []
  | field :: fields, input =>
      match strtok space input with
      | none => []
      | some (value, rest) => ⟨field, value⟩ :: printLines fields rest

def printFields (file : List UInt8) (fields : List String) : Option (List Line) :=
  let buf := file.take bufSize
  -- with nothing read, `buf[len - 1]` is not in the buffer
  if buf = [] then none
  else some (printLines fields (buf.dropLast.takeWhile (· ≠ 0)))

def statFields : List String :=
  ["pid", "comm", "state", "ppid", "pgrp", "session", "tty_nr", "tpgid",
    "flags", "minflt", "cminflt", "majflt", "cmajflt", "utime", "stime",
    "cutime", "cstime", "priority", "nice", "num_threads", "itrealvalue",
    "starttime", "vsize", "rss", "rsslim", "startcode", "endcode",
    "startstack", "kstkesp", "kstkeip", "signal", "blocked", "sigignore",
    "sigcatch", "wchan", "nswap", "cnswap", "exit_signal", "processor",
    "rt_priority", "policy", "delayacct_blkio_ticks", "guest_time",
    "cguest_time", "start_data", "end_data", "start_brk", "arg_start",
    "arg_end", "env_start", "env_end", "exit_code"]

def statmFields : List String := ["size", "resident", "shared", "text", "lib", "data", "dt"]

def printProcStat (file : List UInt8) : Option (List Line) := printFields file statFields

def printProcStatm (file : List UInt8) : Option (List Line) := printFields file statmFields

structure PrintInfo where
  name : String
  printFile : List UInt8 → Option (List Line)

def stat : PrintInfo := ⟨"stat", printProcStat⟩

def statm : PrintInfo := ⟨"statm", printProcStatm⟩

structure Section where
  name : String
  lines : List Line
deriving DecidableEq

/-- `fprintf(f, "\n===== %s =====\n", info->name)` and the lines. -/
def Section.text (s : Section) : List UInt8 :=
  "\n===== ".toUTF8.toList ++ s.name.toUTF8.toList ++ " =====\n".toUTF8.toList ++
    s.lines.flatMap Line.text

/-- `file` is `none` when `fopen` fails. -/
def printProcFile (info : PrintInfo) (file : Option (List UInt8)) : Option Section :=
  match file with
  | none => some ⟨info.name, []⟩
  | some file => (info.printFile file).map (⟨info.name, ·⟩)

abbrev Number := { value : Int // -2 ^ 63 ≤ value ∧ value < 2 ^ 64 }

def Number.digits (n : Number) : List UInt8 :=
  if n.val < 0 then 45 :: decimal n.val.natAbs else decimal n.val.natAbs

def layoutFields (fields : List (List UInt8)) : List UInt8 :=
  List.intercalate [space] fields ++ [10]

structure Record where
  pid : Number
  comm : List UInt8
  state : UInt8
  numbers : List Number
  comm_length : comm.length ≤ 15
  comm_string : 0 ∉ comm
  state_letter : 65 ≤ state ∧ state ≤ 122
  numbers_length : numbers.length = 49

def Record.fields (record : Record) : List (List UInt8) :=
  record.pid.digits :: ([40] ++ record.comm ++ [41]) :: [record.state] ::
    record.numbers.map Number.digits

def Record.file (record : Record) : List UInt8 := layoutFields record.fields

end OsUnix.ProcStat
