import OsUnix.ProcDump.Model

/-!
# The stat report

The tokens of all blocks are numbered through, up to the 51st. What is lost are the last bytes of
the blocks, so the report is right when these are separators.
-/

namespace OsUnix.ProcDump
open Kernel
open ProcStat (space layoutFields)

structure StatRecord where
  fields : List (List UInt8)
  count : fields.length ≤ 52
  nonempty : ∀ f ∈ fields, f ≠ []
  blankFree : ∀ f ∈ fields, space ∉ f

def StatRecord.file (record : StatRecord) : List UInt8 := layoutFields record.fields

def Reported (buf : Memory) (record : StatRecord) : Prop :=
  ∃ r, readOneFile statOutput ⟨0, []⟩ buf record.file = some r ∧
    r.printed = List.zipWith Entry.mk outputNames record.fields

variable {values fields : List (List UInt8)} {file block input value : List UInt8}
  {record : StatRecord} {n : Nat}

def Report.of (values : List (List UInt8)) : Report :=
  ⟨values.length, List.zipWith Entry.mk outputNames values⟩

theorem zipWith_concat {names : List String} (below : values.length < names.length) :
    List.zipWith Entry.mk names (values ++ [value]) =
      List.zipWith Entry.mk names values ++ [⟨names.getD values.length "", value⟩] := by
  induction values generalizing names with
  | nil => cases names <;> simp at below ⊢
  | cons v values ih =>
      cases names with
      | nil => simp at below
      | cons name names => simpa using ih (by simpa using below)

theorem tokens_of (fits : values.length + n ≤ 52) :
    (Report.of values).tokens n input = .of (values ++ (words space input).take n) := by
  induction n generalizing values input with
  | zero => simp [Report.tokens]
  | succ n ih =>
      rw [Report.tokens]
      cases next : strtok space input with
      | none => simp [words_of_strtok_none next]
      | some next' =>
          have below : values.length < outputNames.length := Nat.lt_of_lt_of_le (by omega) fits
          have one : Report.of (values ++ [next'.1]) = ⟨values.length + 1,
              (Report.of values).printed ++ [⟨outputNames.getD values.length "", next'.1⟩]⟩ := by
            rw [Report.of, zipWith_concat below, List.length_append]
            rfl
          rw [words_of_strtok next, List.take_succ_cons, List.append_cons, ← ih (by simp; omega),
            one]
          rfl

theorem statOutput_of (fits : values.length ≤ 51) :
    statOutput (.of values) input = .of ((values ++ words space input).take 51) := by
  rw [statOutput, tokens_of (by simp [Report.of]; omega), List.take_append,
    List.take_of_length_le fits]
  rfl

def allWords (chunks : List (List UInt8)) : List (List UInt8) :=
  chunks.flatMap fun block => words space (lines block.dropLast)

theorem take_take_append (first second : List (List UInt8)) :
    (first.take n ++ second).take n = (first ++ second).take n := by
  rw [List.take_append, List.take_append, List.take_take, List.length_take, Nat.min_self]
  congr 2
  omega

theorem foldl_statOutput (chunks : List (List UInt8)) (fits : values.length ≤ 51) :
    chunks.foldl (fun r block => statOutput r (lines block.dropLast)) (.of values) =
      .of ((values ++ allWords chunks).take 51) := by
  induction chunks generalizing values with
  | nil => simp [allWords, List.take_of_length_le fits]
  | cons block chunks ih =>
      rw [List.foldl_cons, statOutput_of fits, ih (List.length_take_le 51 _), take_take_append,
        List.append_assoc]
      rfl

theorem values_entries (fits : fields.length ≤ 52) :
    (List.zipWith Entry.mk outputNames fields).map Entry.value = fields := by
  have second : (List.zip outputNames fields).map Prod.snd = fields := List.map_snd_zip fits
  rw [List.zip_eq_zipWith, List.map_zipWith] at second
  rwa [List.map_zipWith]

theorem reported_iff_words (buf : Memory) :
    Reported buf record ↔ (allWords (blocks bufSize record.file)).take 51 = record.fields := by
  have done : readOneFile statOutput ⟨0, []⟩ buf record.file =
      some (.of ((allWords (blocks bufSize record.file)).take 51)) := by
    rw [readOneFile_eq]
    exact congrArg some (@foldl_statOutput [] _ (Nat.zero_le _))
  constructor
  · rintro ⟨r, done', printed⟩
    cases Option.some.inj (done.symm.trans done')
    have values := congrArg (List.map Entry.value) printed
    rwa [Report.of, values_entries ((List.length_take_le 51 _).trans (by decide)),
      values_entries record.count] at values
  · intro same
    exact ⟨_, done, by rw [same]; rfl⟩

def letters (bytes : List UInt8) : Nat := bytes.countP (· ≠ space)

theorem letters_append (a b : List UInt8) : letters (a ++ b) = letters a + letters b :=
  List.countP_append

theorem letters_lines (bytes : List UInt8) : letters (lines bytes) = letters bytes := by
  rw [letters, lines, List.countP_map]
  apply List.countP_congr
  intro b _
  by_cases zero : b = 0
  · subst zero
    decide
  · simp [zero]

theorem size_allWords (chunks : List (List UInt8)) :
    ((allWords chunks).map List.length).sum =
      (chunks.map fun block => letters block.dropLast).sum := by
  induction chunks with
  | nil => rfl
  | cons block chunks ih =>
      rw [List.map_cons, List.sum_cons, ← ih, ← letters_lines, letters, ← size_words, allWords,
        List.flatMap_cons, List.map_append, List.sum_append]
      rfl

theorem letters_lost (ends : ∀ c ∈ file.getLast?, c ≠ space) (some_byte : file ≠ []) :
    ((blocks bufSize file).map fun block => letters block.dropLast).sum + 1 ≤ letters file ∧
      (letters file ≤
        ((blocks bufSize file).map fun block => letters block.dropLast).sum + 1 →
          Ends (· = space) bufSize file) := by
  have positive : 0 < bufSize := by decide
  induction file using blocks_induction positive with
  | short file fits =>
      rcases List.eq_nil_or_concat' file with rfl | ⟨front, c, rfl⟩
      · exact absurd rfl some_byte
      · have letter : c ≠ space := ends c (by simp)
        refine ⟨?_, fun _ => ends_short fits⟩
        rw [blocks_short some_byte fits, letters_append]
        simp [letters, letter]
  | long block rest full more ih =>
      rcases List.eq_nil_or_concat' block with rfl | ⟨front, c, rfl⟩
      · exact absurd full (Nat.ne_of_lt positive)
      · obtain ⟨least, exactly⟩ := ih (by rwa [List.getLast?_append_of_ne_nil _ more] at ends) more
        have last : (front ++ [c])[bufSize - 1]? = some c := by
          rw [← full]
          simp
        rw [blocks_append full positive, List.map_cons, List.sum_cons, List.dropLast_concat,
          letters_append, letters_append, ends_append full positive more, last]
        by_cases separator : c = space
        · subst separator
          simp only [Option.some.injEq, exists_eq_left', true_and]
          have none : letters [space] = 0 := rfl
          exact ⟨by omega, fun few => exactly (by omega)⟩
        · have one : letters [c] = 1 := by simp [letters, separator]
          exact ⟨by omega, fun few => by omega⟩

theorem allWords_blocks (ends : Ends (· = space) bufSize file) :
    allWords (blocks bufSize file) = words space (lines file.dropLast) := by
  have positive : 0 < bufSize := by decide
  induction file using blocks_induction positive with
  | short file fits =>
      by_cases empty : file = []
      · subst empty
        simp [allWords, lines]
      · simp [allWords, blocks_short empty fits]
  | long block rest full more ih =>
      rcases List.eq_nil_or_concat' block with rfl | ⟨front, c, rfl⟩
      · exact absurd full (Nat.ne_of_lt positive)
      · obtain ⟨⟨c', last, separator⟩, later⟩ := (ends_append full positive more).mp ends
        have same : c = c' := by
          rw [← full] at last
          simpa using last
        subst same separator
        rw [blocks_append full positive, allWords, List.flatMap_cons, List.dropLast_concat,
          List.dropLast_append_of_ne_nil more, List.append_assoc, lines_append]
        exact (congrArg _ (ih later)).trans words_append.symm

theorem words_fields (record : StatRecord) (text : ∀ f ∈ record.fields, 0 ∉ f) :
    words space (lines record.file.dropLast) = record.fields := by
  have free : 0 ∉ List.intercalate [space] record.fields := by
    intro mem
    rcases mem_intercalate mem with delimiter | ⟨f, field, inside⟩
    · cases delimiter
    · exact text f field inside
  rw [StatRecord.file, layoutFields, List.dropLast_concat, lines_eq_self free,
    words_intercalate record.nonempty record.blankFree]

theorem letters_file (record : StatRecord) :
    letters record.file = (record.fields.map List.length).sum + 1 := by
  have fields := words_intercalate record.nonempty record.blankFree
  rw [StatRecord.file, layoutFields, letters_append, letters, ← size_words, fields]
  rfl

theorem Reported.ready {buf : Memory} (reported : Reported buf record) :
    record.fields.length ≤ 51 ∧ (∀ f ∈ record.fields, 0 ∉ f) ∧
      Ends (· = space) bufSize record.file := by
  have same := (reported_iff_words buf).mp reported
  refine ⟨same ▸ List.length_take_le 51 _, ?_, ?_⟩
  · intro f mem zero
    rw [← same] at mem
    obtain ⟨block, -, inside⟩ := List.mem_flatMap.mp (List.mem_of_mem_take mem)
    exact zero_not_mem_lines (mem_of_mem_words inside zero)
  · have last : ∀ c ∈ record.file.getLast?, c ≠ space := by
      simp [StatRecord.file, layoutFields, space]
    have some_byte : record.file ≠ [] := by simp [StatRecord.file, layoutFields]
    apply (letters_lost last some_byte).2
    rw [letters_file, ← size_allWords, ← List.take_append_drop 51 (allWords _), same,
      List.map_append, List.sum_append]
    omega

/-- A record is reported right exactly when it has at most 51 fields, no zero in them and a
separator at the end of every full block that has more behind it. -/
theorem reported_iff (buf : Memory) (record : StatRecord) :
    Reported buf record ↔ record.fields.length ≤ 51 ∧ (∀ f ∈ record.fields, 0 ∉ f) ∧
      Ends (· = space) bufSize record.file := by
  constructor
  · exact Reported.ready
  · rintro ⟨few, text, ends⟩
    rw [reported_iff_words, allWords_blocks ends, words_fields record text,
      List.take_of_length_le few]

def full : StatRecord where
  fields := List.replicate 52 [49]
  count := List.length_replicate.le
  nonempty _ mem := List.eq_of_mem_replicate mem ▸ List.cons_ne_nil _ _
  blankFree _ mem := List.eq_of_mem_replicate mem ▸ by decide

def wide : StatRecord where
  fields := [wholeBlock]
  count := by decide
  nonempty _ mem := List.mem_singleton.mp mem ▸ wholeBlock_ne_nil
  blankFree _ mem := List.mem_singleton.mp mem ▸ not_mem_wholeBlock (by decide)

theorem reported_fails : ¬ Reported 0 full ∧ ¬ Reported 0 wide := by
  constructor
  · intro reported
    have few := reported.ready.1
    rw [full, List.length_replicate] at few
    exact absurd few (by decide)
  · intro reported
    have file : wide.file = wholeBlock ++ [10] := by
      rw [StatRecord.file, layoutFields, wide, List.intercalate_singleton]
    have ends := reported.ready.2.2
    rw [file] at ends
    exact absurd (of_ends_wholeBlock ends) (by decide)

end OsUnix.ProcDump
