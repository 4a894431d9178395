import OsUnix.Kernel.Memory
import OsUnix.Kernel.Stdio
import OsUnix.ProcStat.Model

/-!
# Files of /proc as text

The loop of `print_proc_file` in `6-semestr/lab4/part1/1.c` for an entry that has no function of its
own, and `read_one_file` of `6-semestr/lab4/part11/main.c` with what it prints. The buffer is at 0.
-/

namespace OsUnix.ProcDump
open Kernel

def newlines (m : Memory) (i : Int) : Nat → Accesses
  | 0 => []
  | n + 1 =>
      let here : Accesses := if m i = 0 then [(i, 10)] else []
      here ++ newlines (m.store here) (i + 1) n

structure Dump where
  buf : Memory
  log : List UInt8
  stores : Accesses

def Dump.round (ignoreNewline : Bool) (s : Dump) (chunk : List UInt8) : Option Dump := do
  let read := Accesses.place 0 chunk
  let buf := s.buf.store read
  let converted := if ignoreNewline then [] else newlines buf 0 chunk.length
  let terminator := [((chunk.length : Int), 0)]
  let buf := (buf.store converted).store terminator
  let text ← buf.string 0
  return { buf, log := s.log ++ text, stores := s.stores ++ (read ++ converted ++ terminator) }

def dump (ignoreNewline : Bool) (s : Dump) (chunks : List (List UInt8)) : Option Dump :=
  chunks.foldlM (Dump.round ignoreNewline) s

def bufSize : Nat := 0x200

section reading

variable {S : Type}

/-- One round of the loop. What `strtok` stores lies where the next `fread` does or behind its
terminator. -/
def readBlock (printFunc : S → List UInt8 → S) (s : S × Memory) (block : List UInt8) :
    Option (S × Memory) := do
  let buf := s.2.store (.place 0 block)
  let buf := buf.store (newlines buf 0 block.length)
  let buf := buf.store [((block.length : Int) - 1, 0)]
  let text ← buf.string 0
  return (printFunc s.1 text, buf)

def readOneFile (printFunc : S → List UInt8 → S) (s : S) (buf : Memory) (file : List UInt8) :
    Option S :=
  ((blocks bufSize file).foldlM (readBlock printFunc) (s, buf)).map Prod.fst

end reading

def simpleOutput (printed text : List UInt8) : List UInt8 := printed ++ text ++ [10]

def outputNames : List String :=
  ["pid", "filename", "state", "ppid", "gid", "session", "tty_nr", "tp_gid",
    "flags", "minflt", "cminflt", "majflt", "cmajflt", "utime", "stime",
    "cutime", "cstime", "priority", "nice", "num_threads", "itrealvalue",
    "start_tiime", "vsize", "rss", "rsslim", "startcode", "endcode",
    "startstack", "kstkesp", "kstkeip", "signal", "blocked", "sigignore",
    "sigcatch", "wchan", "nswap", "cnswap", "exit_signal", "processor",
    "rt_priority", "policy", "delayacct_blkio_tics", "quest_time",
    "cquest_time", "start_data", "end_data", "start_brk", "arg_start",
    "arg_end", "env_start", "env_end", "exit_code"]

structure Entry where
  name : String
  value : List UInt8
deriving DecidableEq

/-- `printf("\n%15s:\t %s", outputNames[i], pch)` -/
def Entry.text (entry : Entry) : List UInt8 :=
  let name := entry.name.toUTF8.toList
  [10] ++ List.replicate (15 - name.length) ProcStat.space ++ name ++ [58, 9, ProcStat.space] ++
    entry.value

/-- `i` is the static variable. -/
structure Report where
  i : Nat
  printed : List Entry
deriving DecidableEq

def Report.tokens (r : Report) : Nat → List UInt8 → Report
  | 0, _ => r
  | n + 1, input =>
      match strtok ProcStat.space input with
      | none => r
      | some (pch, rest) =>
          tokens ⟨r.i + 1, r.printed ++ [⟨outputNames.getD r.i "", pch⟩]⟩ n rest

def statOutput (r : Report) (text : List UInt8) : Report := r.tokens (51 - r.i) text

def lines (bytes : List UInt8) : List UInt8 := bytes.map fun b => if b = 0 then 10 else b

variable {m : Memory} {i : Int} {n : Nat} {a b : List UInt8}

@[simp] theorem length_lines : (lines a).length = a.length := List.length_map _

theorem lines_append : lines (a ++ b) = lines a ++ lines b := List.map_append

theorem lines_eq_self (free : 0 ∉ a) : lines a = a := by
  have same : lines a = a.map id := by
    apply List.map_congr_left
    intro b mem
    have nonzero : b ≠ 0 := fun zero => free (zero ▸ mem)
    exact if_neg nonzero
  rw [same, List.map_id]

theorem zero_not_mem_lines : 0 ∉ lines a := by
  rw [lines, List.mem_map]
  rintro ⟨b, -, zero⟩
  split at zero
  · cases zero
  · rename_i nonzero
    exact nonzero zero

theorem newlines_within : (newlines m i n).Within i (i + n) := by
  induction n generalizing m i with
  | zero => exact List.forall_mem_nil _
  | succ n ih =>
      rw [newlines]
      refine Accesses.within_append.mpr ⟨?_, ih.mono (by omega) (by omega)⟩
      split
      · exact Accesses.within_singleton.mpr (by omega)
      · exact List.forall_mem_nil _

theorem slice_newlines : Memory.slice (m.store (newlines m i n)) i n = lines (m.slice i n) := by
  induction n generalizing m i with
  | zero => rfl
  | succ n ih =>
      rw [newlines, Memory.store_append]
      generalize here_eq : (if m i = 0 then [(i, 10)] else [] : Accesses) = here
      have within : here.Within i (i + 1) := by
        rw [← here_eq]
        split
        · exact Accesses.within_singleton.mpr (by omega)
        · exact List.forall_mem_nil _
      have first : m.store here i = if m i = 0 then 10 else m i := by
        rw [← here_eq]
        split
        · exact Function.update_self ..
        · rfl
      rw [Memory.slice, ih, Memory.store_eq newlines_within (.inl (by omega)), first,
        Memory.slice_store within (.inr (Int.le_refl _)), Memory.slice]
      rfl

theorem string_chunk {chunk : List UInt8} (inside : n ≤ chunk.length)
    (small : chunk.length < Memory.addressSpace) :
    Memory.string (((m.store (.place 0 chunk)).store
      (newlines (m.store (.place 0 chunk)) 0 chunk.length)).store [((n : Int), 0)]) 0 =
      some (lines (chunk.take n)) := by
  have length : (lines (chunk.take n)).length = n := by
    rw [length_lines, List.length_take, Nat.min_eq_left inside]
  apply Memory.string_of_slice
  · rw [length, Memory.slice_add, Memory.slice_store (Accesses.within_singleton.mpr ⟨Int.le_refl _,
      Int.lt_succ _⟩) (.inl (by omega)), ← Memory.take_slice inside, slice_newlines,
      Memory.slice_place, lines, ← List.map_take, Int.zero_add]
    congr 1
    exact congrArg (· :: []) (Function.update_self ..)
  · exact zero_not_mem_lines
  · omega

section reading

variable {S : Type} (printFunc : S → List UInt8 → S) {block : List UInt8}

theorem exists_readBlock (s : S) (buf : Memory) (some_byte : block ≠ [])
    (fits : block.length ≤ bufSize) :
    ∃ buf', readBlock printFunc (s, buf) block =
      some (printFunc s (lines block.dropLast), buf') := by
  have positive := List.length_pos_iff.mpr some_byte
  have last : (block.length : Int) - 1 = (block.length - 1 : Nat) := by omega
  have small : block.length < Memory.addressSpace := Nat.lt_of_le_of_lt fits (by decide)
  have text := @string_chunk buf _ block (Nat.sub_le _ 1) small
  rw [← List.dropLast_eq_take] at text
  exact ⟨_, by simp only [readBlock, last, text]; rfl⟩

theorem exists_readBlocks (s : S) (buf : Memory) {chunks : List (List UInt8)}
    (fits : ∀ block ∈ chunks, block ≠ [] ∧ block.length ≤ bufSize) :
    ∃ buf', chunks.foldlM (readBlock printFunc) (s, buf) =
      some (chunks.foldl (fun s block => printFunc s (lines block.dropLast)) s, buf') := by
  induction chunks generalizing s buf with
  | nil => exact ⟨buf, rfl⟩
  | cons block chunks ih =>
      obtain ⟨⟨some_byte, here⟩, later⟩ := List.forall_mem_cons.mp fits
      obtain ⟨buf₁, first⟩ := exists_readBlock printFunc s buf some_byte here
      obtain ⟨buf₂, rest⟩ := ih (printFunc s (lines block.dropLast)) buf₁ later
      refine ⟨buf₂, ?_⟩
      rw [List.foldlM_cons, first]
      exact rest

theorem readOneFile_eq (s : S) (buf : Memory) (file : List UInt8) :
    readOneFile printFunc s buf file =
      some ((blocks bufSize file).foldl (fun s block => printFunc s (lines block.dropLast)) s) := by
  obtain ⟨buf', done⟩ := exists_readBlocks printFunc s buf fun block mem =>
    of_mem_blocks (by decide : 0 < bufSize) mem
  rw [readOneFile, done]
  rfl

end reading

def wholeBlock : List UInt8 := List.replicate bufSize 97

theorem length_wholeBlock : wholeBlock.length = bufSize := List.length_replicate

theorem wholeBlock_ne_nil : wholeBlock ≠ [] :=
  List.length_pos_iff.mp (length_wholeBlock ▸ (by decide : 0 < bufSize))

theorem not_mem_wholeBlock {b : UInt8} (other : b ≠ 97) : b ∉ wholeBlock :=
  fun mem => other (List.eq_of_mem_replicate mem)

theorem of_ends_wholeBlock {P : UInt8 → Prop} {b : UInt8}
    (ends : Ends P bufSize (wholeBlock ++ [b])) : P 97 := by
  obtain ⟨c, last, holds⟩ := ends 0 (by simp [length_wholeBlock])
  have inside : bufSize * (0 + 1) - 1 < bufSize := by decide
  rw [List.getElem?_append_left (by rwa [length_wholeBlock]), wholeBlock,
    List.getElem?_replicate_of_lt inside] at last
  exact Option.some.inj last ▸ holds

end OsUnix.ProcDump
