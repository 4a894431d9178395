import OsUnix.ProcDump.Model

/-!
# Raw dumps

The terminator goes behind what has been read. That is one byte too far when the whole buffer is
filled, and in no other case.
-/

namespace OsUnix.ProcDump
open Kernel

variable {s t : Dump} {chunk file log : List UInt8} {chunks : List (List UInt8)}

structure Faithful (log file : List UInt8) (t : Dump) : Prop where
  log : t.log = log ++ lines file
  stores : t.stores.Within 0 ProcStat.bufSize

def Dumped (buf : Memory) (log : List UInt8) (reading : Reading ProcStat.bufSize file) : Prop :=
  ∃ t, dump false ⟨buf, log, []⟩ reading.chunks = some t ∧ Faithful log file t

theorem exists_round (s : Dump) (fits : chunk.length ≤ ProcStat.bufSize) :
    ∃ t, s.round false chunk = some t ∧ t.log = s.log ++ lines chunk ∧
      (t.stores.Within 0 ProcStat.bufSize ↔
        s.stores.Within 0 ProcStat.bufSize ∧ chunk.length < ProcStat.bufSize) := by
  have small : chunk.length < Memory.addressSpace := Nat.lt_of_le_of_lt fits (by decide)
  have text := @string_chunk s.buf _ chunk (Nat.le_refl _) small
  rw [List.take_length] at text
  refine ⟨_, by simp only [Dump.round, Bool.false_eq_true, if_false, text]; rfl, rfl, ?_⟩
  have read : (Accesses.place 0 chunk).Within 0 ProcStat.bufSize :=
    Accesses.place_within.mono (Int.le_refl 0) (by omega)
  have converted (m : Memory) : (newlines m 0 chunk.length).Within 0 ProcStat.bufSize :=
    newlines_within.mono (Int.le_refl 0) (by omega)
  simp only [Accesses.within_append, Accesses.within_singleton, read, converted, true_and]
  exact and_congr_right fun _ => by omega

theorem exists_dump (fits : ∀ chunk ∈ chunks, chunk.length ≤ ProcStat.bufSize) (s : Dump) :
    ∃ t, dump false s chunks = some t ∧ t.log = s.log ++ lines chunks.flatten ∧
      (t.stores.Within 0 ProcStat.bufSize ↔ s.stores.Within 0 ProcStat.bufSize ∧
        ∀ chunk ∈ chunks, chunk.length < ProcStat.bufSize) := by
  induction chunks generalizing s with
  | nil => exact ⟨s, rfl, by simp [lines], by simp⟩
  | cons chunk chunks ih =>
      obtain ⟨here, later⟩ := List.forall_mem_cons.mp fits
      obtain ⟨u, round, shown, within⟩ := exists_round s here
      obtain ⟨t, rest, log, stores⟩ := ih later u
      refine ⟨t, ?_, ?_, ?_⟩
      · rw [dump, List.foldlM_cons, round]
        exact rest
      · rw [log, shown, List.flatten_cons, lines_append, List.append_assoc]
      · rw [stores, within, List.forall_mem_cons, and_assoc]

theorem Dumped.short {buf : Memory} {reading : Reading ProcStat.bufSize file}
    (dumped : Dumped buf log reading) :
    ∀ chunk ∈ reading.chunks, chunk.length < ProcStat.bufSize := by
  obtain ⟨t, done, faithful⟩ := dumped
  obtain ⟨t', done', -, stores⟩ := exists_dump reading.fits ⟨buf, log, []⟩
  cases Option.some.inj (done.symm.trans done')
  exact (stores.mp faithful.stores).2

/-- The dump is right exactly when no `fread` fills the buffer. -/
theorem dumped_iff (buf : Memory) (log : List UInt8) (reading : Reading ProcStat.bufSize file) :
    Dumped buf log reading ↔ ∀ chunk ∈ reading.chunks, chunk.length < ProcStat.bufSize := by
  constructor
  · exact Dumped.short
  · intro short
    obtain ⟨t, done, shown, stores⟩ := exists_dump reading.fits ⟨buf, log, []⟩
    rw [reading.whole] at shown
    exact ⟨t, done, shown, stores.mpr ⟨List.forall_mem_nil _, short⟩⟩

theorem dumped_fails : ¬ Dumped 0 []
    (Reading.blocks (by decide : 0 < ProcStat.bufSize) (List.replicate 256 97)) := by
  intro dumped
  have length : (List.replicate 256 (97 : UInt8)).length = ProcStat.bufSize := List.length_replicate
  have one : blocks ProcStat.bufSize (List.replicate 256 (97 : UInt8)) = [List.replicate 256 97] :=
    blocks_short (List.replicate_succ ▸ List.cons_ne_nil _ _) length.le
  have full := dumped.short _ (one ▸ List.mem_singleton_self _)
  rw [length] at full
  exact Nat.lt_irrefl _ full

end OsUnix.ProcDump
