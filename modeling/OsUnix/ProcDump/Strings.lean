import OsUnix.Kernel.Strings
import OsUnix.ProcDump.Model

/-!
# Strings that end in zeros

The last byte of each block goes unprinted, and a newline is printed in its place.
-/

namespace OsUnix.ProcDump
open Kernel

abbrev Text := { text : List UInt8 // text ≠ [] ∧ 0 ∉ text }

def textFile (texts : List Text) : List UInt8 := layout (texts.map Subtype.val)

def Complete (buf : Memory) (texts : List Text) : Prop :=
  readOneFile simpleOutput [] buf (textFile texts) =
    some (texts.flatMap fun text => text.val ++ [10])

def shown (block : List UInt8) : List UInt8 := lines block.dropLast ++ [10]

variable {file block printed text : List UInt8} {texts : List Text}

theorem lines_textFile : lines (textFile texts) = texts.flatMap fun text => text.val ++ [10] := by
  induction texts with
  | nil => rfl
  | cons text texts ih =>
      rw [textFile, List.map_cons, layout_cons, lines_append, lines_append,
        lines_eq_self text.property.2, List.flatMap_cons, ← ih]
      rfl

theorem foldl_shown (printed : List UInt8) (chunks : List (List UInt8)) :
    chunks.foldl (fun s block => simpleOutput s (lines block.dropLast)) printed =
      printed ++ chunks.flatMap shown := by
  induction chunks generalizing printed with
  | nil => simp
  | cons block chunks ih =>
      rw [List.foldl_cons, ih, List.flatMap_cons, simpleOutput, shown]
      simp

theorem shown_eq_lines (some_byte : block ≠ []) :
    shown block = lines block ↔ ∃ c, block[block.length - 1]? = some c ∧ (c = 0 ∨ c = 10) := by
  rcases List.eq_nil_or_concat' block with rfl | ⟨front, c, rfl⟩
  · exact absurd rfl some_byte
  · by_cases zero : c = 0 <;> simp [shown, lines, zero, eq_comm]

theorem shown_blocks_iff (ends : ∀ c ∈ file.getLast?, c = 0) :
    (blocks bufSize file).flatMap shown = lines file ↔
      Ends (fun c => c = 0 ∨ c = 10) bufSize file := by
  have positive : 0 < bufSize := by decide
  induction file using blocks_induction positive with
  | short file fits =>
      refine iff_of_true ?_ (ends_short fits)
      rcases List.eq_nil_or_concat' file with rfl | ⟨front, c, rfl⟩
      · simp [lines]
      · have zero : c = 0 := ends c (by simp)
        rw [blocks_short (by simp) fits, List.flatMap_singleton]
        simp [shown, lines, zero]
  | long block rest full more ih =>
      have some_byte : block ≠ [] := List.length_pos_iff.mp (full ▸ positive)
      have same : (shown block).length = (lines block).length := by
        rw [shown, List.length_append, length_lines, length_lines, List.length_dropLast]
        exact Nat.sub_add_cancel (List.length_pos_iff.mpr some_byte)
      rw [List.getLast?_append_of_ne_nil _ more] at ends
      have later : (blocks bufSize rest).flatMap shown = lines rest ↔ Ends _ bufSize rest := ih ends
      rw [blocks_append full positive, List.flatMap_cons, lines_append,
        ends_append full positive more, ← later, ← full, ← shown_eq_lines some_byte]
      constructor
      · exact fun eq => List.append_inj eq same
      · rintro ⟨first, later⟩
        rw [first, later]

theorem textFile_last : ∀ c ∈ (textFile texts).getLast?, c = 0 := by
  rcases List.eq_nil_or_concat' texts with rfl | ⟨front, last, rfl⟩
  · simp [textFile]
  · simp [textFile, layout_concat]

theorem complete_iff_shown (buf : Memory) : Complete buf texts ↔
    (blocks bufSize (textFile texts)).flatMap shown = lines (textFile texts) := by
  rw [Complete, readOneFile_eq, foldl_shown, List.nil_append, Option.some.injEq, lines_textFile]

/-- The strings are printed right exactly when every full block that has more behind it ends in a
zero or a newline. -/
theorem complete_iff (buf : Memory) (texts : List Text) :
    Complete buf texts ↔ Ends (fun c => c = 0 ∨ c = 10) bufSize (textFile texts) :=
  (complete_iff_shown buf).trans (shown_blocks_iff textFile_last)

def longText : Text := ⟨wholeBlock, wholeBlock_ne_nil, not_mem_wholeBlock (by decide)⟩

theorem complete_fails : ¬ Complete 0 [longText] := by
  have file : textFile [longText] = wholeBlock ++ [0] := by
    rw [textFile, List.map_singleton, layout_cons, layout_nil, List.append_nil, longText]
  rw [complete_iff_shown, shown_blocks_iff textFile_last, file]
  exact fun ends => absurd (of_ends_wholeBlock ends) (by decide)

end OsUnix.ProcDump
