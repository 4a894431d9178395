import Mathlib.Data.List.Perm.Subperm
import Mathlib.Data.Set.Insert

/-!
# Allocations

What was allocated and what was freed. A region is live in between.
-/

namespace OsUnix.Kernel

variable {R : Type*}

structure Heap (R : Type*) where
  allocated : List R
  freed : List R

namespace Heap

def empty : Heap R := ⟨[], []⟩

def alloc (h : Heap R) (r : R) : Heap R := { h with allocated := r :: h.allocated }

def free (h : Heap R) : Option R → Heap R
  | none => h
  | some r => { h with freed := r :: h.freed }

def Live (h : Heap R) (r : R) : Prop := r ∈ h.allocated ∧ r ∉ h.freed

instance [DecidableEq R] (h : Heap R) (r : R) : Decidable (h.Live r) :=
  inferInstanceAs (Decidable (_ ∧ _))

structure Balanced (h : Heap R) : Prop where
  allocated : h.allocated.Nodup
  freed : h.freed.Nodup
  freed_allocated : ∀ r ∈ h.freed, r ∈ h.allocated

variable {h : Heap R} {q r : R}

theorem balanced_empty : (empty : Heap R).Balanced :=
  ⟨List.nodup_nil, List.nodup_nil, List.forall_mem_nil _⟩

theorem not_live_empty : ¬ (empty : Heap R).Live r := fun live => List.not_mem_nil live.1

theorem Balanced.alloc (balanced : h.Balanced) (new : r ∉ h.allocated) : (h.alloc r).Balanced where
  allocated := List.nodup_cons.mpr ⟨new, balanced.allocated⟩
  freed := balanced.freed
  freed_allocated q mem := List.mem_cons_of_mem r (balanced.freed_allocated q mem)

theorem Balanced.free (balanced : h.Balanced) (live : h.Live r) : (h.free (some r)).Balanced where
  allocated := balanced.allocated
  freed := List.nodup_cons.mpr ⟨live.2, balanced.freed⟩
  freed_allocated := List.forall_mem_cons.mpr ⟨live.1, balanced.freed_allocated⟩

theorem live_alloc (balanced : h.Balanced) (new : r ∉ h.allocated) :
    (h.alloc r).Live q ↔ q = r ∨ h.Live q := by
  constructor
  · rintro ⟨mem, kept⟩
    exact (List.mem_cons.mp mem).imp_right fun mem => ⟨mem, kept⟩
  · rintro (rfl | live)
    · exact ⟨List.mem_cons_self, fun freed => new (balanced.freed_allocated q freed)⟩
    · exact ⟨List.mem_cons_of_mem r live.1, live.2⟩

theorem live_free : (h.free (some r)).Live q ↔ h.Live q ∧ q ≠ r := by
  show q ∈ h.allocated ∧ q ∉ r :: h.freed ↔ _
  rw [List.mem_cons, not_or, and_comm (a := ¬ q = r), ← and_assoc]
  rfl

theorem Balanced.count_le [DecidableEq R] (balanced : h.Balanced) (r : R) :
    h.freed.count r ≤ h.allocated.count r :=
  (balanced.freed.subperm balanced.freed_allocated).count_le r

theorem Balanced.count_eq [DecidableEq R] (balanced : h.Balanced) (none : ∀ r, ¬ h.Live r) (r : R) :
    h.freed.count r = h.allocated.count r := by
  apply Nat.le_antisymm (balanced.count_le r)
  refine (balanced.allocated.subperm fun q mem => ?_).count_le r
  by_contra kept
  exact none q ⟨mem, kept⟩

structure Accounts (h : Heap R) (held : Set R) : Prop where
  balanced : h.Balanced
  live : ∀ r, h.Live r ↔ r ∈ held

variable {held : Set R}

theorem accounts_empty : (empty : Heap R).Accounts ∅ :=
  ⟨balanced_empty, fun _ => iff_of_false not_live_empty (Set.notMem_empty _)⟩

theorem Accounts.alloc (accounts : h.Accounts held) (new : r ∉ h.allocated) :
    (h.alloc r).Accounts (insert r held) where
  balanced := accounts.balanced.alloc new
  live q := by rw [live_alloc accounts.balanced new, accounts.live, Set.mem_insert_iff]

theorem Accounts.free (accounts : h.Accounts held) (mem : r ∈ held) :
    (h.free (some r)).Accounts (held \ {r}) where
  balanced := accounts.balanced.free ((accounts.live r).mpr mem)
  live q := by rw [live_free, accounts.live, Set.mem_sdiff, Set.mem_singleton_iff]

theorem Accounts.congr {other : Set R} (accounts : h.Accounts held)
    (same : ∀ r, r ∈ other ↔ r ∈ held) : h.Accounts other :=
  ⟨accounts.balanced, fun r => (accounts.live r).trans (same r).symm⟩

theorem Accounts.held_of_count [DecidableEq R] (accounts : h.Accounts held)
    (less : h.freed.count r < h.allocated.count r) : r ∈ held := by
  have mem : r ∈ h.allocated := List.count_pos_iff.mp (Nat.zero_lt_of_lt less)
  refine (accounts.live r).mp ⟨mem, fun freed => ?_⟩
  have once := List.nodup_iff_count.mp accounts.balanced.allocated r
  have some := List.count_pos_iff.mpr freed
  omega

end Heap

end OsUnix.Kernel
