import OsUnix.ProcStat.Model

/-!
# Which records are labelled right

One blank in a field shifts every label behind it, and what does not fit the buffer is lost together
with the last byte that does.
-/

namespace OsUnix.ProcStat
open Kernel

variable {labels : List String} {fields : List (List UInt8)} {input : List UInt8} {n : Number}
  {record : Record} {b : UInt8}

theorem printLines_eq : printLines labels input =
    List.zipWith Line.mk labels (tokens space labels.length input) := by
  induction labels generalizing input with
  | nil => rfl
  | cons field labels ih =>
      rw [printLines, List.length_cons, tokens]
      cases strtok space input with
      | none => rfl
      | some next => exact congrArg (_ :: ·) ih

theorem values_zipWith (fields : List (List UInt8)) :
    (List.zipWith Line.mk labels fields).map Line.value = fields.take labels.length := by
  induction labels generalizing fields with
  | nil => simp
  | cons field labels ih =>
      cases fields with
      | nil => rfl
      | cons value fields => exact congrArg (value :: ·) (ih fields)

theorem printLines_iff (same : fields.length = labels.length) :
    printLines labels input = List.zipWith Line.mk labels fields ↔
      tokens space fields.length input = fields := by
  rw [printLines_eq, same]
  constructor
  · intro eq
    have values := congrArg (List.map Line.value) eq
    rwa [values_zipWith, values_zipWith, List.take_of_length_le length_tokens_le,
      List.take_of_length_le same.le] at values
  · exact congrArg _

theorem printFields_iff (same : fields.length = labels.length) (some_field : fields ≠ [])
    (nonempty : ∀ f ∈ fields, f ≠ []) (strings : ∀ f ∈ fields, 0 ∉ f) :
    printFields (layoutFields fields) labels = some (List.zipWith Line.mk labels fields) ↔
      (∀ f ∈ fields, space ∉ f) ∧ (layoutFields fields).length ≤ bufSize := by
  have length : (layoutFields fields).length = (List.intercalate [space] fields).length + 1 := by
    rw [layoutFields, List.length_append, List.length_singleton]
  have some_byte : (layoutFields fields).take bufSize ≠ [] := by
    rw [layoutFields]
    simp [bufSize]
  rw [printFields, if_neg some_byte, Option.some.injEq, printLines_iff same]
  constructor
  · intro eq
    constructor
    · intro f mem
      rw [← eq] at mem
      exact not_mem_of_mem_tokens mem
    · have size := @size_tokens_le _ _ space
        (((layoutFields fields).take bufSize).dropLast.takeWhile (· ≠ 0)) fields.length
      rw [eq, ← @length_intercalate _ space _ some_field] at size
      have kept := (List.takeWhile_sublist (p := fun b : UInt8 => decide (b ≠ 0))
        (l := ((layoutFields fields).take bufSize).dropLast)).length_le
      rw [List.length_dropLast, List.length_take] at kept
      rw [length]
      unfold bufSize at *
      omega
  · rintro ⟨free, fits⟩
    have no_zero : ∀ c ∈ List.intercalate [space] fields, decide (c ≠ 0) = true := by
      intro c mem
      rcases mem_intercalate mem with rfl | ⟨f, field, inside⟩
      · rfl
      · exact decide_eq_true fun zero => strings f field (zero ▸ inside)
    rw [List.take_of_length_le fits, layoutFields, List.dropLast_concat,
      List.takeWhile_eq_self_iff.mpr no_zero]
    exact tokens_intercalate nonempty free

theorem number_digits (mem : b ∈ n.digits) : b = 45 ∨ isDigit b = true := by
  unfold Number.digits at mem
  split at mem
  · rcases List.mem_cons.mp mem with minus | digit
    · exact .inl minus
    · exact .inr (isDigit_decimal digit)
  · exact .inr (isDigit_decimal mem)

theorem digits_ne_nil : n.digits ≠ [] := by
  unfold Number.digits
  split
  · exact List.cons_ne_nil _ _
  · exact decimal_ne_nil

theorem not_mem_digits (low : b.toNat ≤ 32) : b ∉ n.digits := by
  intro mem
  rcases number_digits mem with rfl | digit
  · exact absurd low (by decide)
  · have := (isDigit_iff.mp digit).1
    omega

theorem length_fields (record : Record) : record.fields.length = statFields.length := by
  rw [Record.fields, List.length_cons, List.length_cons, List.length_cons, List.length_map,
    record.numbers_length]
  rfl

theorem fields_ne_nil (record : Record) : ∀ f ∈ record.fields, f ≠ [] := by
  simp only [Record.fields, List.forall_mem_cons, List.forall_mem_map]
  exact ⟨digits_ne_nil, by simp, by simp, fun _ _ => digits_ne_nil⟩

theorem not_mem_state (low : b.toNat ≤ 32) : b ∉ [record.state] := by
  intro mem
  have letter := UInt8.le_iff_toNat_le.mp record.state_letter.1
  rw [← List.mem_singleton.mp mem] at letter
  exact absurd (Nat.le_trans letter low) (by decide)

theorem not_mem_fields_iff (low : b.toNat ≤ 32) :
    (∀ f ∈ record.fields, b ∉ f) ↔ b ∉ record.comm := by
  have brackets : b ∉ [40] ++ record.comm ++ [41] ↔ b ∉ record.comm := by
    have opening : b ≠ 40 := by
      rintro rfl
      exact absurd low (by decide)
    have closing : b ≠ 41 := by
      rintro rfl
      exact absurd low (by decide)
    simp [opening, closing]
  simp only [Record.fields, List.forall_mem_cons, List.forall_mem_map, brackets]
  exact ⟨fun h => h.2.1, fun free =>
    ⟨not_mem_digits low, free, not_mem_state low, fun _ _ => not_mem_digits low⟩⟩

def Labelled (record : Record) : Prop :=
  printProcFile stat (some record.file) =
    some ⟨"stat", List.zipWith Line.mk statFields record.fields⟩

theorem labelled_iff_lines : Labelled record ↔
    printFields (layoutFields record.fields) statFields =
      some (List.zipWith Line.mk statFields record.fields) := by
  show (printFields record.file statFields).map (Section.mk "stat") = some _ ↔ _
  simp [Record.file]

theorem lines_iff (record : Record) : printFields (layoutFields record.fields) statFields =
    some (List.zipWith Line.mk statFields record.fields) ↔
      space ∉ record.comm ∧ record.file.length ≤ bufSize := by
  rw [printFields_iff (length_fields record) (List.cons_ne_nil _ _) (fields_ne_nil record)
    ((not_mem_fields_iff (by decide)).mpr record.comm_string), not_mem_fields_iff (by decide),
    Record.file]

/-- A record is labelled right exactly when its command has no blank and the file has at most 256
bytes. -/
theorem labelled_iff (record : Record) :
    Labelled record ↔ space ∉ record.comm ∧ record.file.length ≤ bufSize :=
  labelled_iff_lines.trans (lines_iff record)

def small : Number := ⟨0, by decide⟩

def large : Number := ⟨2 ^ 64 - 1, by decide⟩

def blank : Record where
  pid := small
  comm := [97, 32, 98]
  state := 83
  numbers := List.replicate 49 small
  comm_length := by decide
  comm_string := by decide
  state_letter := by decide
  numbers_length := List.length_replicate

def long : Record where
  pid := large
  comm := [97]
  state := 83
  numbers := List.replicate 49 large
  comm_length := by decide
  comm_string := by decide
  state_letter := by decide
  numbers_length := List.length_replicate

theorem labelled_fails : ¬ Labelled blank ∧ ¬ Labelled long := by
  constructor
  · rw [labelled_iff_lines, lines_iff]
    exact fun labelled => labelled.1 (by decide)
  · rw [labelled_iff_lines, lines_iff]
    have digits : large.digits.length = 20 := by decide
    have length : long.file.length = 1056 := by
      rw [Record.file, layoutFields, List.length_append, List.length_singleton,
        @length_intercalate _ _ long.fields (List.cons_ne_nil _ _)]
      simp [Record.fields, long, digits]
    rw [length]
    exact fun labelled => absurd labelled.2 (by decide)

end OsUnix.ProcStat
