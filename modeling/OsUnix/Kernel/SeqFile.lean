import Mathlib.Data.List.Basic

/-!
# Sequence files

A file that `single_open` makes has one record. The first read has it shown into a buffer of a page;
while it does not fit, it is thrown away, the buffer is doubled, and it is shown again. Later reads
go on where the last one ended.
-/

namespace OsUnix.Kernel

variable {S : Type*}

def pageSize : Nat := 4096

/-- `left` is what is still to be read of the record, once it has been shown. -/
structure SeqFile where
  left : Option (List UInt8)

namespace SeqFile

def maxDoublings : Nat := 19

/-- `none` when the record is not shown to its end or no buffer is large enough. -/
def fill (display : S → Option (S × List UInt8)) : Nat → Nat → S → Option (S × List UInt8)
  | 0, _, _ => none
  | tries + 1, size, s => (display s).bind fun r =>
      if r.2.length < size then some r else fill display tries (2 * size) r.1

def read (display : S → Option (S × List UInt8)) (s : S) (file : SeqFile) (n : Nat) :
    Option ((S × SeqFile) × List UInt8) :=
  match file.left with
  | none => (fill display maxDoublings pageSize s).map fun r =>
      ((r.1, ⟨some (r.2.drop n)⟩), r.2.take n)
  | some left => some ((s, ⟨some (left.drop n)⟩), left.take n)

def readAll (display : S → Option (S × List UInt8)) :
    S → SeqFile → List Nat → Option (S × List UInt8)
  | _, _, [] => none
  | s, file, n :: rest => (read display s file n).bind fun r =>
      if r.2 = [] then some (r.1.1, [])
      else (readAll display r.1.1 r.1.2 rest).map fun q => (q.1, r.2 ++ q.2)

def session (display : S → Option (S × List UInt8)) (s : S) (sizes : List Nat) :
    Option (S × List UInt8) :=
  readAll display s ⟨none⟩ sizes

variable {display : S → Option (S × List UInt8)} {s t : S} {left output : List UInt8}
  {sizes : List Nat} {size tries n : Nat}

theorem take_eq_nil (positive : 0 < n) : left.take n = [] ↔ left = [] := by
  rw [List.take_eq_nil_iff, or_iff_right (Nat.ne_of_gt positive)]

theorem readAll_some : readAll display s ⟨some left⟩ (n :: sizes) =
    if left.take n = [] then some (s, [])
    else (readAll display s ⟨some (left.drop n)⟩ sizes).map fun q => (q.1, left.take n ++ q.2) :=
  rfl

theorem session_of_fill (fills : fill display maxDoublings pageSize s = some (t, output)) :
    session display s (n :: sizes) = readAll display t ⟨some output⟩ (n :: sizes) := by
  simp only [session, readAll, read, fills, Option.map_some, Option.bind_some]

theorem readAll_left (positive : ∀ n ∈ sizes, 0 < n) (enough : left.length < sizes.length) :
    readAll display s ⟨some left⟩ sizes = some (s, left) := by
  induction sizes generalizing left with
  | nil => simp at enough
  | cons n rest ih =>
      obtain ⟨here, positive⟩ := List.forall_mem_cons.mp positive
      rw [readAll_some]
      by_cases empty : left = []
      · rw [if_pos ((take_eq_nil here).mpr empty), empty]
      · have shorter : (left.drop n).length < rest.length := by
          have := List.length_pos_of_ne_nil empty
          rw [List.length_cons] at enough
          rw [List.length_drop]
          omega
        rw [if_neg (mt (take_eq_nil here).mp empty), ih positive shorter, Option.map_some,
          List.take_append_drop]

theorem eq_of_readAll_left (positive : ∀ n ∈ sizes, 0 < n)
    (h : readAll display s ⟨some left⟩ sizes = some (t, output)) : t = s ∧ output = left := by
  induction sizes generalizing left output with
  | nil => cases h
  | cons n rest ih =>
      obtain ⟨here, positive⟩ := List.forall_mem_cons.mp positive
      rw [readAll_some] at h
      split at h
      · rename_i empty
        cases h
        exact ⟨rfl, ((take_eq_nil here).mp empty).symm⟩
      · obtain ⟨⟨u, more⟩, later, eq⟩ := Option.map_eq_some_iff.mp h
        cases eq
        obtain ⟨rfl, rfl⟩ := ih positive later
        exact ⟨rfl, List.take_append_drop n left⟩

theorem session_eq (fills : fill display maxDoublings pageSize s = some (t, output))
    (positive : ∀ n ∈ sizes, 0 < n) (enough : output.length < sizes.length) :
    session display s sizes = some (t, output) := by
  cases sizes with
  | nil => simp at enough
  | cons n rest =>
      rw [session_of_fill fills, readAll_left positive enough]

theorem fill_of_session (positive : ∀ n ∈ sizes, 0 < n)
    (h : session display s sizes = some (t, output)) :
    fill display maxDoublings pageSize s = some (t, output) := by
  cases sizes with
  | nil => cases h
  | cons n rest =>
      cases fills : fill display maxDoublings pageSize s with
      | none => simp [session, readAll, read, fills] at h
      | some r =>
          rw [session_of_fill fills] at h
          obtain ⟨rfl, rfl⟩ := eq_of_readAll_left positive h
          rfl

theorem fill_fits (tries : Nat) (shown : display s = some (t, output))
    (fits : output.length < size) : fill display (tries + 1) size s = some (t, output) := by
  simp [fill, shown, fits]

theorem fill_again (shown : display s = some (t, output)) (full : size ≤ output.length) :
    fill display (tries + 1) size s = fill display tries (2 * size) t := by
  simp [fill, shown, Nat.not_lt.mpr full]

theorem exists_shown {I : S → Prop} (start : I s)
    (keep : ∀ {s t output}, I s → display s = some (t, output) → I t)
    (fills : fill display tries size s = some (t, output)) :
    ∃ r, I r ∧ display r = some (t, output) := by
  induction tries generalizing s size with
  | zero => cases fills
  | succ tries ih =>
      obtain ⟨r, shown, rest⟩ := Option.bind_eq_some_iff.mp fills
      split at rest
      · cases rest
        exact ⟨s, start, shown⟩
      · exact ih (keep start shown) rest

end SeqFile

end OsUnix.Kernel
