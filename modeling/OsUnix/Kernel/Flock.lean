import OsUnix.Kernel.Descriptors

/-!
# Locks on open files

What `flock` does to the lock on one file. The owners are open file descriptions.
-/

namespace OsUnix.Kernel

namespace Errno

def ewouldblock : Errno := ⟨11, by decide⟩

def einval : Errno := ⟨22, by decide⟩

end Errno

def lockSh : Nat := 1

def lockEx : Nat := 2

def lockNb : Nat := 4

def lockUn : Nat := 8

inductive LockRequest
  | shared
  | exclusive
  | unlock
deriving DecidableEq, Repr

/-- `LOCK_NB` may stand with one of the three others, and nothing else may. -/
def lockRequest (operation : Nat) : Option LockRequest :=
  let kind := operation - (operation &&& lockNb)
  if kind = lockSh then some .shared
  else if kind = lockEx then some .exclusive
  else if kind = lockUn then some .unlock
  else none

inductive FileLock (ι : Type*)
  | shared (owners : List ι)
  | exclusive (owner : ι)
deriving DecidableEq

namespace FileLock

variable {ι : Type*} [DecidableEq ι]

def unlocked : FileLock ι := .shared []

def Holds : FileLock ι → ι → Prop
  | .shared owners, i => i ∈ owners
  | .exclusive owner, i => i = owner

def release (i : ι) : FileLock ι → FileLock ι
  | .shared owners => .shared (owners.filter (· ≠ i))
  | .exclusive owner => if owner = i then .unlocked else .exclusive owner

def grant (i : ι) : LockRequest → FileLock ι → Option (FileLock ι)
  | .shared, .shared owners => some (.shared (i :: owners))
  | .exclusive, .shared [] => some (.exclusive i)
  | .unlock, others => some others
  | _, _ => none

/-- The caller gives up what it held before it asks. A call that has to wait has no answer. -/
def flock (lock : FileLock ι) (i : ι) (operation : Nat) : Option (FileLock ι × Option Errno) :=
  match lockRequest operation with
  | none => some (lock, some .einval)
  | some request =>
      match (lock.release i).grant i request with
      | some lock => some (lock, none)
      | none =>
          if operation &&& lockNb = 0 then none else some (lock.release i, some .ewouldblock)

theorem flock_invalid {operation : Nat} (invalid : lockRequest operation = none)
    (lock : FileLock ι) (i : ι) : lock.flock i operation = some (lock, some .einval) := by
  rw [flock, invalid]

end FileLock

end OsUnix.Kernel
