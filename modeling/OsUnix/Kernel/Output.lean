import Mathlib.Data.List.Basic
import Mathlib.Algebra.GroupWithZero.Nat

/-!
# Files written through a buffer

What a write at an offset makes of a file, and a stream that hands over what it is given a buffer at
a time.
-/

namespace OsUnix.Kernel

variable {α ι : Type*} [Zero α]

/-- A gap behind the end of the file is filled with zeros. Writing nothing changes nothing. -/
def pwrite (file : List α) (offset : Nat) (data : List α) : List α :=
  if data.isEmpty then file else
    file.take offset ++ List.replicate (offset - file.length) 0 ++ data ++
      file.drop (offset + data.length)

variable {file data text more : List α} {offset size p : Nat}

@[simp] theorem pwrite_nil : pwrite file offset [] = file := rfl

theorem pwrite_of_ne_nil (some_data : data ≠ []) : pwrite file offset data =
    file.take offset ++ List.replicate (offset - file.length) 0 ++ data ++
      file.drop (offset + data.length) := by
  cases data with
  | nil => exact absurd rfl some_data
  | cons c data => rfl

theorem pwrite_within (within : offset ≤ file.length) :
    pwrite file offset data = file.take offset ++ data ++ file.drop (offset + data.length) := by
  by_cases nothing : data = []
  · simp [nothing]
  · rw [pwrite_of_ne_nil nothing, Nat.sub_eq_zero_of_le within, List.replicate_zero,
      List.append_nil]

theorem pwrite_end : pwrite file file.length data = file ++ data := by
  rw [pwrite_within (Nat.le_refl _), List.take_length, List.drop_of_length_le (Nat.le_add_right ..),
    List.append_nil]

theorem pwrite_tail {kept rest : List α} (here : kept.length = offset)
    (covers : rest.length ≤ data.length) : pwrite (kept ++ rest) offset data = kept ++ data := by
  rw [pwrite_within (by rw [List.length_append]; omega), List.take_left' here,
    List.drop_of_length_le (by rw [List.length_append]; omega), List.append_nil]

theorem pwrite_whole (covers : file.length ≤ data.length) : pwrite file 0 data = data :=
  pwrite_tail (Eq.refl [].length) covers

theorem length_pwrite (some_data : data ≠ []) :
    (pwrite file offset data).length = max file.length (offset + data.length) := by
  rw [pwrite_of_ne_nil some_data]
  simp only [List.length_append, List.length_take, List.length_replicate, List.length_drop]
  omega

theorem getElem?_pwrite {c : α} (found : (pwrite file offset data)[p]? = some c) :
    (offset ≤ p ∧ data[p - offset]? = some c) ∨ file[p]? = some c ∨ c = 0 := by
  by_cases nothing : data = []
  · subst nothing
    exact .inr (.inl found)
  · rw [pwrite_of_ne_nil nothing, List.append_assoc, List.append_assoc] at found
    have start : (file.take offset ++ List.replicate (offset - file.length) (0 : α)).length =
        offset := by
      simp only [List.length_append, List.length_take, List.length_replicate]
      omega
    rw [← List.append_assoc] at found
    by_cases before : p < offset
    · rw [List.getElem?_append_left (by omega)] at found
      by_cases inside : p < file.length
      · rw [List.getElem?_append_left (by rw [List.length_take]; omega),
          List.getElem?_take_of_lt before] at found
        exact .inr (.inl found)
      · rw [List.getElem?_append_right (by rw [List.length_take]; omega)] at found
        exact .inr (.inr (List.eq_of_mem_replicate (List.mem_of_getElem? found)))
    · rw [List.getElem?_append_right (by omega), start] at found
      by_cases inside : p - offset < data.length
      · rw [List.getElem?_append_left inside] at found
        exact .inl ⟨by omega, found⟩
      · rw [List.getElem?_append_right (by omega), List.getElem?_drop] at found
        have place : offset + data.length + (p - offset - data.length) = p := by omega
        rw [place] at found
        exact .inr (.inl found)

structure Output (α : Type*) where
  buffer : List α
  offset : Nat
deriving DecidableEq, Repr

namespace Output

def opened : Output α := ⟨[], 0⟩

def flush (o : Output α) (file : List α) : Output α × List α :=
  (⟨[], o.offset + o.buffer.length⟩, pwrite file o.offset o.buffer)

/-- A full buffer is written before the next element is put. -/
def put (size : Nat) (o : Output α) (c : α) (file : List α) : Output α × List α :=
  if o.buffer.length < size then (⟨o.buffer ++ [c], o.offset⟩, file)
  else (⟨[c], o.offset + o.buffer.length⟩, pwrite file o.offset o.buffer)

def Gave (o : Output α) (text : List α) : Prop :=
  ∃ sent, text = sent ++ o.buffer ∧ sent.length = o.offset

variable {o : Output α} {c : α}

omit [Zero α] in
theorem gave_opened : (opened : Output α).Gave [] := ⟨[], rfl, rfl⟩

theorem put_buffered (room : o.buffer.length < size) :
    o.put size c file = (⟨o.buffer ++ [c], o.offset⟩, file) :=
  if_pos room

theorem put_full (full : ¬ o.buffer.length < size) :
    o.put size c file = (⟨[c], o.offset + o.buffer.length⟩, pwrite file o.offset o.buffer) :=
  if_neg full

theorem Gave.put (gave : o.Gave text) : (o.put size c file).1.Gave (text ++ [c]) := by
  obtain ⟨sent, rfl, length⟩ := gave
  by_cases room : o.buffer.length < size
  · rw [put_buffered room]
    exact ⟨sent, List.append_assoc .., length⟩
  · rw [put_full room]
    exact ⟨sent ++ o.buffer, rfl, by rw [List.length_append, length]⟩

omit [Zero α] in
theorem Gave.offset_le (gave : o.Gave text) : o.offset + o.buffer.length = text.length := by
  obtain ⟨sent, rfl, length⟩ := gave
  rw [List.length_append, length]

omit [Zero α] in
theorem Gave.take_append (gave : o.Gave text) : text.take o.offset ++ o.buffer = text := by
  obtain ⟨sent, rfl, length⟩ := gave
  rw [List.take_left' length]

omit [Zero α] in
theorem Gave.drop_offset (gave : o.Gave text) : text.drop o.offset = o.buffer := by
  obtain ⟨sent, rfl, length⟩ := gave
  rw [List.drop_left' length]

theorem put_file (size : Nat) (o : Output α) (c : α) (file : List α) :
    (o.put size c file).2 = file ∨ (o.put size c file).2 = pwrite file o.offset o.buffer := by
  by_cases room : o.buffer.length < size
  · exact .inl (by rw [put_buffered room])
  · exact .inr (by rw [put_full room])

end Output

def InPlace (texts : ι → List α) (file : List α) : Prop :=
  ∀ (p : Nat) (c : α), file[p]? = some c → c = 0 ∨ ∃ k, (texts k)[p]? = some c

variable {texts : ι → List α} {k : ι} {o : Output α}

theorem InPlace.pwrite (inPlace : InPlace texts file) (gave : o.Gave text)
    (begins : text <+: texts k) : InPlace texts (pwrite file o.offset o.buffer) := by
  obtain ⟨sent, rfl, length⟩ := gave
  obtain ⟨rest, whole⟩ := begins
  intro p c found
  rcases getElem?_pwrite found with ⟨behind, written⟩ | kept | gap
  · refine .inr ⟨k, ?_⟩
    have inside : p - o.offset < o.buffer.length := (List.getElem?_eq_some_iff.mp written).1
    rw [← whole, List.append_assoc, List.getElem?_append_right (by omega), length,
      List.getElem?_append_left inside, written]
  · exact inPlace p c kept
  · exact .inl gap

namespace Output

structure Blockwise (size : Nat) (o : Output α) : Prop where
  aligned : size ∣ o.offset
  fits : o.buffer.length ≤ size
  kept : o.buffer = [] → o.offset = 0

variable {c d : α} {o₁ o₂ : Output α} {text₁ text₂ : List α}

omit [Zero α] in
theorem blockwise_opened : (opened : Output α).Blockwise size :=
  ⟨Nat.dvd_zero size, Nat.zero_le _, fun _ => rfl⟩

theorem Blockwise.put (blockwise : o.Blockwise size) (positive : 0 < size) :
    (o.put size c file).1.Blockwise size := by
  obtain ⟨aligned, fits, kept⟩ := blockwise
  by_cases room : o.buffer.length < size
  · rw [put_buffered room]
    exact ⟨aligned, by rw [List.length_append]; exact room, fun none => by simp at none⟩
  · rw [put_full room]
    have full : o.buffer.length = size := Nat.le_antisymm fits (Nat.le_of_not_lt room)
    exact ⟨Nat.dvd_add aligned ⟨1, by simp [full]⟩, positive, fun none => by simp at none⟩

omit [Zero α] in
theorem Blockwise.offset_eq (blockwise : o.Blockwise size) (gave : o.Gave text) :
    o.offset = (text.length - 1) / size * size := by
  obtain ⟨⟨q, offset⟩, fits, kept⟩ := blockwise
  rw [Nat.mul_comm] at offset
  have total := gave.offset_le
  by_cases none : o.buffer = []
  · rw [← total, none, kept none]
    simp
  · have some_element := List.length_pos_iff.mpr none
    rw [offset, Nat.div_eq_of_lt_le (k := q) (by omega) (by rw [Nat.succ_mul]; omega)]

structure Level (size : Nat) (o₁ o₂ : Output α) (text₁ text₂ file : List α) : Prop where
  gave₁ : o₁.Gave text₁
  gave₂ : o₂.Gave text₂
  blockwise₁ : o₁.Blockwise size
  blockwise₂ : o₂.Blockwise size
  length : text₁.length = text₂.length
  written : file = text₂.take o₂.offset

omit [Zero α] in
theorem Level.opened : Level size (opened : Output α) opened [] [] [] :=
  ⟨gave_opened, gave_opened, blockwise_opened, blockwise_opened, rfl, rfl⟩

omit [Zero α] in
theorem Level.offset_eq (level : Level size o₁ o₂ text₁ text₂ file) : o₁.offset = o₂.offset := by
  rw [level.blockwise₁.offset_eq level.gave₁, level.blockwise₂.offset_eq level.gave₂, level.length]

omit [Zero α] in
theorem Level.length_file (level : Level size o₁ o₂ text₁ text₂ file) :
    file.length = o₂.offset := by
  have total := level.gave₂.offset_le
  rw [level.written, List.length_take]
  omega

theorem Level.put (level : Level size o₁ o₂ text₁ text₂ file) (positive : 0 < size) :
    Level size (o₁.put size c file).1 (o₂.put size d (o₁.put size c file).2).1 (text₁ ++ [c])
      (text₂ ++ [d]) (o₂.put size d (o₁.put size c file).2).2 := by
  refine ⟨level.gave₁.put, level.gave₂.put, level.blockwise₁.put positive,
    level.blockwise₂.put positive, by simp [level.length], ?_⟩
  have here := level.length_file
  have same := level.offset_eq
  have total₁ := level.gave₁.offset_le
  have total₂ := level.gave₂.offset_le
  have length := level.length
  by_cases room : o₁.buffer.length < size
  · rw [put_buffered room, put_buffered (by omega), level.written]
    exact (List.take_append_of_le_length (by omega)).symm
  · rw [put_full room, put_full (by omega), same, ← here, pwrite_end,
      pwrite_tail rfl (by omega), here, total₂, List.take_left, level.written,
      level.gave₂.take_append]

theorem Level.flush₁ (level : Level size o₁ o₂ text₁ text₂ file) :
    (o₁.flush file).2 = text₂.take o₂.offset ++ o₁.buffer := by
  rw [← level.written, flush, level.offset_eq, ← level.length_file, pwrite_end]

theorem Level.flush₂ (level : Level size o₁ o₂ text₁ text₂ file) :
    (o₂.flush file).2 = text₂ := by
  rw [flush, ← level.length_file, pwrite_end]
  exact (congrArg (· ++ o₂.buffer) level.written).trans level.gave₂.take_append

theorem Level.flush_both (level : Level size o₁ o₂ text₁ text₂ file) :
    (o₂.flush (o₁.flush file).2).2 = text₂ ∧
      (o₁.flush (o₂.flush file).2).2 = text₂.take o₂.offset ++ o₁.buffer := by
  have here : (text₂.take o₂.offset).length = o₂.offset := by
    rw [← level.written, level.length_file]
  have total₁ := level.gave₁.offset_le
  have total₂ := level.gave₂.offset_le
  have same := level.offset_eq
  have length := level.length
  constructor
  · rw [level.flush₁, flush, pwrite_tail here (by omega), level.gave₂.take_append]
  · rw [level.flush₂, flush, same]
    conv => lhs; rw [← level.gave₂.take_append]
    exact pwrite_tail here (by omega)

end Output

end OsUnix.Kernel
