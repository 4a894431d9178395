import Mathlib.Data.List.Basic
import Mathlib.Data.Nat.Basic

/-!
# Files read through a buffer

What the calls that fill a buffer of a given size get of a file, and what stands at the end of each
of them.
-/

namespace OsUnix.Kernel

variable {α : Type*}

def blocks (size : Nat) : List α → List (List α)
  | [] => []
  | first :: rest => (first :: rest.take (size - 1)) :: blocks size (rest.drop (size - 1))
termination_by file => file.length
decreasing_by
  rw [List.length_drop, List.length_cons]
  omega

def Ends (P : α → Prop) (size : Nat) (file : List α) : Prop :=
  ∀ k, size * (k + 1) < file.length → ∃ c, file[size * (k + 1) - 1]? = some c ∧ P c

/-- A stream with its buffer. Its end of file is set once and for all. -/
structure Stream (α : Type*) where
  buffer : List α
  eof : Bool
deriving DecidableEq

/-- The next element of a stream, and what it leaves of the file behind its descriptor. An empty
buffer is filled by one read. -/
def Stream.next (size : Nat) (s : Stream α) (file : List α) : Option α × Stream α × List α :=
  match s.buffer with
  | c :: buffer => (some c, { s with buffer }, file)
  | [] =>
      if s.eof = true then (none, s, file)
      else match file.take size with
        | [] => (none, { s with eof := true }, file)
        | c :: buffer => (some c, { s with buffer }, file.drop size)

/-- What the reads of a whole file answer, each with one element at least and `size` at most. -/
structure Reading (size : Nat) (file : List α) where
  chunks : List (List α)
  whole : chunks.flatten = file
  nonempty : ∀ chunk ∈ chunks, chunk ≠ []
  fits : ∀ chunk ∈ chunks, chunk.length ≤ size

variable {size : Nat} {file block rest : List α} {P : α → Prop}

@[simp] theorem blocks_nil : blocks size ([] : List α) = [] := by
  rw [blocks]

theorem blocks_short (some_element : file ≠ []) (short : file.length ≤ size) :
    blocks size file = [file] := by
  cases file with
  | nil => exact absurd rfl some_element
  | cons first rest =>
      rw [List.length_cons] at short
      rw [blocks, List.take_of_length_le (by omega), List.drop_of_length_le (by omega), blocks_nil]

theorem blocks_append (full : block.length = size) (positive : 0 < size) :
    blocks size (block ++ rest) = block :: blocks size rest := by
  cases block with
  | nil => exact absurd full (Nat.ne_of_lt positive)
  | cons first more =>
      rw [List.length_cons] at full
      rw [List.cons_append, blocks, List.take_left' (by omega), List.drop_left' (by omega)]

theorem blocks_of_ne_nil (some_element : file ≠ []) (positive : 0 < size) :
    blocks size file = file.take size :: blocks size (file.drop size) := by
  by_cases short : file.length ≤ size
  · rw [blocks_short some_element short, List.take_of_length_le short,
      List.drop_of_length_le short, blocks_nil]
  · have full : (file.take size).length = size := by
      rw [List.length_take]
      omega
    conv => lhs; rw [← List.take_append_drop size file]
    rw [blocks_append full positive]

theorem blocks_induction {motive : List α → Prop} (positive : 0 < size)
    (short : ∀ file, file.length ≤ size → motive file)
    (long : ∀ block rest, block.length = size → rest ≠ [] → motive rest → motive (block ++ rest))
    (file : List α) : motive file := by
  induction length : file.length using Nat.strongRecOn generalizing file with
  | ind n ih =>
      by_cases fits : file.length ≤ size
      · exact short file fits
      · have more : file.drop size ≠ [] := by
          rw [ne_eq, List.drop_eq_nil_iff]
          omega
        have less : (file.drop size).length < n := by
          rw [List.length_drop]
          omega
        rw [← List.take_append_drop size file]
        refine long _ _ ?_ more (ih _ less _ rfl)
        rw [List.length_take]
        omega

theorem flatten_blocks (positive : 0 < size) (file : List α) :
    (blocks size file).flatten = file := by
  induction file using blocks_induction positive with
  | short file fits =>
      by_cases empty : file = []
      · subst empty
        rw [blocks_nil, List.flatten_nil]
      · rw [blocks_short empty fits, List.flatten_singleton]
  | long block rest full _ ih => rw [blocks_append full positive, List.flatten_cons, ih]

theorem of_mem_blocks (positive : 0 < size) (mem : block ∈ blocks size file) :
    block ≠ [] ∧ block.length ≤ size := by
  induction file using blocks_induction positive with
  | short file fits =>
      by_cases empty : file = []
      · subst empty
        simp at mem
      · rw [blocks_short empty fits, List.mem_singleton] at mem
        exact mem ▸ ⟨empty, fits⟩
  | long first rest full _ ih =>
      rw [blocks_append full positive, List.mem_cons] at mem
      rcases mem with rfl | later
      · exact ⟨List.length_pos_iff.mp (full ▸ positive), Nat.le_of_eq full⟩
      · exact ih later

theorem ends_short (short : file.length ≤ size) : Ends P size file := by
  intro k inside
  have beyond : size ≤ size * (k + 1) := Nat.le_mul_of_pos_right size k.succ_pos
  omega

theorem ends_append (full : block.length = size) (positive : 0 < size) (more : rest ≠ []) :
    Ends P size (block ++ rest) ↔
      (∃ c, block[size - 1]? = some c ∧ P c) ∧ Ends P size rest := by
  have behind := List.length_pos_iff.mpr more
  have shift (k : Nat) : size * (k + 1 + 1) - 1 = block.length + (size * (k + 1) - 1) := by
    have next : size * (k + 1 + 1) = size * (k + 1) + size := Nat.mul_succ ..
    have beyond : size ≤ size * (k + 1) := Nat.le_mul_of_pos_right size k.succ_pos
    omega
  constructor
  · intro ends
    constructor
    · have first := ends 0 (by rw [List.length_append]; omega)
      rwa [Nat.zero_add, Nat.mul_one, List.getElem?_append_left (by omega)] at first
    · intro k inside
      have later := ends (k + 1) (by rw [List.length_append, Nat.mul_succ]; omega)
      rwa [shift, List.getElem?_append_right (Nat.le_add_right ..),
        Nat.add_sub_cancel_left] at later
  · rintro ⟨first, later⟩ k inside
    cases k with
    | zero => rwa [Nat.zero_add, Nat.mul_one, List.getElem?_append_left (by omega)]
    | succ k =>
        rw [shift, List.getElem?_append_right (Nat.le_add_right ..), Nat.add_sub_cancel_left]
        apply later
        rw [List.length_append, Nat.mul_succ] at inside
        omega

theorem next_buffered (c : α) (buffer : List α) (eof : Bool) (file : List α) :
    (Stream.mk (c :: buffer) eof).next size file = (some c, ⟨buffer, eof⟩, file) := rfl

theorem next_ended (eof : Bool) : (Stream.mk ([] : List α) eof).next size [] =
    (none, ⟨[], true⟩, []) := by
  cases eof <;> simp [Stream.next]

theorem next_filled (some_element : file ≠ []) (positive : 0 < size) :
    ∃ c buffer, file.take size = c :: buffer ∧
      (Stream.mk [] false).next size file = (some c, ⟨buffer, false⟩, file.drop size) := by
  cases filled : file.take size with
  | nil =>
      rcases List.take_eq_nil_iff.mp filled with zero | empty
      · exact absurd zero (Nat.ne_of_gt positive)
      · exact absurd empty some_element
  | cons c buffer => exact ⟨c, buffer, rfl, by simp [Stream.next, filled]⟩

def Reading.blocks (positive : 0 < size) (file : List α) : Reading size file where
  chunks := Kernel.blocks size file
  whole := flatten_blocks positive file
  nonempty _ mem := (of_mem_blocks positive mem).1
  fits _ mem := (of_mem_blocks positive mem).2

end OsUnix.Kernel
