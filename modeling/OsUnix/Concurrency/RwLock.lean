import OsUnix.Concurrency.Counting
import OsUnix.Concurrency.Refinement
import Mathlib.Data.Set.Insert
import Mathlib.Data.Set.Subsingleton

/-!
# The readers-writers lock

What a readers-writers lock is for: any number of readers, or one writer.
-/

namespace OsUnix.Concurrency

variable {ι L : Type*}

def Exclusive (readers writers : Set ι) : Prop :=
  writers.Subsingleton ∧ (writers.Nonempty → readers = ∅)

@[ext] structure RwLock (ι : Type*) where
  readers : Set ι
  writers : Set ι
  exclusive : Exclusive readers writers

namespace RwLock

def idle : RwLock ι := ⟨∅, ∅, Set.subsingleton_empty, fun ⟨_, h⟩ => h.elim⟩

def acquireRead (s : RwLock ι) (i : ι) (no_writer : s.writers = ∅) : RwLock ι where
  readers := insert i s.readers
  writers := s.writers
  exclusive := by simp [Exclusive, no_writer]

def releaseRead (s : RwLock ι) (i : ι) : RwLock ι where
  readers := s.readers \ {i}
  writers := s.writers
  exclusive := ⟨s.exclusive.1, fun h => by simp [s.exclusive.2 h]⟩

def acquireWrite (s : RwLock ι) (i : ι) (no_reader : s.readers = ∅) : RwLock ι where
  readers := s.readers
  writers := {i}
  exclusive := ⟨Set.subsingleton_singleton, fun _ => no_reader⟩

def releaseWrite (s : RwLock ι) (i : ι) : RwLock ι where
  readers := s.readers
  writers := s.writers \ {i}
  exclusive := ⟨s.exclusive.1.anti Set.sdiff_subset,
    fun h => s.exclusive.2 (h.mono Set.sdiff_subset)⟩

inductive Operation : RwLock ι → RwLock ι → Prop
  | acquireRead {s : RwLock ι} (i : ι) (h : s.writers = ∅) : Operation s (s.acquireRead i h)
  | releaseRead {s : RwLock ι} (i : ι) (h : i ∈ s.readers) : Operation s (s.releaseRead i)
  | acquireWrite {s : RwLock ι} (i : ι) (h : s.readers = ∅) (free : s.writers = ∅) :
      Operation s (s.acquireWrite i h)
  | releaseWrite {s : RwLock ι} (i : ι) (h : i ∈ s.writers) : Operation s (s.releaseWrite i)

end RwLock

def rwLock (ι : Type*) : Machine (RwLock ι) := ⟨.idle, RwLock.Operation⟩

def threadsAt (p : L → Bool) (f : ι → L) : Set ι := {i | p (f i) = true}

@[simp] theorem mem_threadsAt {p : L → Bool} {f : ι → L} {i : ι} :
    i ∈ threadsAt p f ↔ p (f i) = true := Iff.rfl

section
variable [Fintype ι]

theorem threadsAt_eq_empty_iff {p : L → Bool} {f : ι → L} :
    threadsAt p f = ∅ ↔ count p f = 0 := by
  simp [Set.eq_empty_iff_forall_notMem, count_eq_zero_iff]

theorem threadsAt_subsingleton_iff {p : L → Bool} {f : ι → L} :
    (threadsAt p f).Subsingleton ↔ count p f ≤ 1 := by
  rw [count_le_one_iff]
  exact ⟨fun h i j hi hj => h hi hj, fun h i hi j hj => h i j hi hj⟩

theorem threadsAt_nonempty_iff {p : L → Bool} {f : ι → L} :
    (threadsAt p f).Nonempty ↔ 0 < count p f := count_pos_iff.symm

theorem exclusive_iff_count {p q : L → Bool} {f : ι → L} :
    Exclusive (threadsAt p f) (threadsAt q f) ↔
      count q f ≤ 1 ∧ (0 < count q f → count p f = 0) := by
  rw [Exclusive, threadsAt_subsingleton_iff, threadsAt_nonempty_iff, threadsAt_eq_empty_iff]

end

section
variable [DecidableEq ι]

theorem threadsAt_update_enter {p : L → Bool} {f : ι → L} {i : ι} {l : L} (h : p l = true) :
    threadsAt p (Function.update f i l) = insert i (threadsAt p f) := by
  ext j
  by_cases eq : j = i
  · subst eq
    simp [h]
  · simp [eq]

theorem threadsAt_update_leave {p : L → Bool} {f : ι → L} {i : ι} {l : L} (h : p l = false) :
    threadsAt p (Function.update f i l) = threadsAt p f \ {i} := by
  ext j
  by_cases eq : j = i
  · subst eq
    simp [h]
  · simp [eq]

theorem threadsAt_update_stay {p : L → Bool} {f : ι → L} {i : ι} {l : L} (h : p l = p (f i)) :
    threadsAt p (Function.update f i l) = threadsAt p f := by
  ext j
  by_cases eq : j = i
  · subst eq
    simp [h]
  · simp [eq]

end

end OsUnix.Concurrency
