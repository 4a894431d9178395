import Mathlib.Data.Fintype.EquivFin
import Mathlib.Data.Nat.Find

/-!
# Descriptor tables

The open descriptors of a process and what they refer to. A new descriptor is the lowest one that is
free.
-/

namespace OsUnix.Kernel

variable {φ : Type*}

def lowestFree (used : Finset Nat) : Nat := Nat.find (Infinite.exists_notMem_finset used)

structure Table (φ : Type*) where
  opened : Finset Nat
  file : Nat → φ

namespace Table

def install (t : Table φ) (file : φ) : Nat × Table φ :=
  let fd := lowestFree t.opened
  (fd, ⟨insert fd t.opened, Function.update t.file fd file⟩)

def dup (t : Table φ) (fd : Nat) : Int × Table φ :=
  if fd ∈ t.opened then
    let (fd', t) := t.install (t.file fd)
    (fd', t)
  else (-1, t)

def close (t : Table φ) (fd : Nat) : Table φ := { t with opened := t.opened.erase fd }

end Table

variable {used : Finset Nat} {t : Table φ} {file : φ} {fd n : Nat}

theorem lowestFree_eq_iff : lowestFree used = n ↔ n ∉ used ∧ ∀ m < n, m ∈ used := by
  simp [lowestFree, Nat.find_eq_iff]

theorem lowestFree_notMem : lowestFree used ∉ used := (lowestFree_eq_iff.mp rfl).1

theorem install_eq (free : fd ∉ t.opened) (below : ∀ m < fd, m ∈ t.opened) :
    t.install file = (fd, ⟨insert fd t.opened, Function.update t.file fd file⟩) := by
  have lowest : lowestFree t.opened = fd := lowestFree_eq_iff.mpr ⟨free, below⟩
  rw [Table.install, lowest]

theorem install_ne (taken : fd ∈ t.opened) : (t.install file).1 ≠ fd := by
  rintro rfl
  exact lowestFree_notMem taken

theorem mem_install (mem : fd ∈ t.opened) : fd ∈ (t.install file).2.opened :=
  Finset.mem_insert_of_mem mem

theorem dup_eq (taken : n ∈ t.opened) (free : fd ∉ t.opened) (below : ∀ m < fd, m ∈ t.opened) :
    t.dup n = ((fd : Int), ⟨insert fd t.opened, Function.update t.file fd (t.file n)⟩) := by
  rw [Table.dup, if_pos taken, install_eq free below]

theorem dup_ne (taken : fd ∈ t.opened) : (t.dup n).1 ≠ fd := by
  rw [Table.dup]
  split
  · exact fun same => install_ne taken (Int.ofNat.inj same)
  · show (-1 : Int) ≠ fd
    omega

theorem mem_dup (mem : fd ∈ t.opened) : fd ∈ (t.dup n).2.opened := by
  rw [Table.dup]
  split
  · exact mem_install mem
  · exact mem

end OsUnix.Kernel
