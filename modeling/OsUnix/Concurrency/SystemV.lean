import Mathlib.Logic.Function.Basic

/-!
# System V semaphores

`semop` on an array of operations with flags 0. The entries are tried in array order on the
running values; an entry that would block leaves every semaphore as it was before the call.
Values have no upper limit here: `ERANGE` is not modelled.
-/

namespace OsUnix.Concurrency

structure Sembuf (κ : Type*) where
  semNum : κ
  semOp : Int

variable {κ : Type*} [DecidableEq κ]

def semopEntry (v : κ → Nat) (b : Sembuf κ) : Option (κ → Nat) :=
  if b.semOp = 0 then
    if v b.semNum = 0 then some v else none
  else if 0 ≤ (v b.semNum : Int) + b.semOp then
    some (Function.update v b.semNum ((v b.semNum : Int) + b.semOp).toNat)
  else none

def semop (v : κ → Nat) (ops : List (Sembuf κ)) : Option (κ → Nat) :=
  ops.foldlM semopEntry v

@[simp] theorem semop_nil (v : κ → Nat) : semop v [] = some v := rfl

theorem semop_cons (v : κ → Nat) (b : Sembuf κ) (ops : List (Sembuf κ)) :
    semop v (b :: ops) = (semopEntry v b).bind fun w => semop w ops := rfl

def raise (v : κ → Nat) (k : κ) : κ → Nat := Function.update v k (v k + 1)

def lower (v : κ → Nat) (k : κ) : κ → Nat := Function.update v k (v k - 1)

@[simp] theorem raise_self (v : κ → Nat) (k : κ) : raise v k k = v k + 1 :=
  Function.update_self _ _ _

@[simp] theorem lower_self (v : κ → Nat) (k : κ) : lower v k k = v k - 1 :=
  Function.update_self _ _ _

@[simp] theorem raise_of_ne {v : κ → Nat} {j k : κ} (other : j ≠ k) : raise v k j = v j :=
  Function.update_of_ne other _ _

@[simp] theorem lower_of_ne {v : κ → Nat} {j k : κ} (other : j ≠ k) : lower v k j = v j :=
  Function.update_of_ne other _ _

@[simp] theorem lower_raise (v : κ → Nat) (k : κ) : lower (raise v k) k = v := by
  simp [lower, raise]

@[simp] theorem semop_wait (v : κ → Nat) (k : κ) (ops : List (Sembuf κ)) :
    semop v (⟨k, 0⟩ :: ops) = if v k = 0 then semop v ops else none := by
  simp only [semop_cons, semopEntry, ↓reduceIte]
  split <;> rfl

@[simp] theorem semop_raise (v : κ → Nat) (k : κ) (ops : List (Sembuf κ)) :
    semop v (⟨k, 1⟩ :: ops) = semop (raise v k) ops := by
  have room : 0 ≤ (v k : Int) + 1 := by omega
  have value : ((v k : Int) + 1).toNat = v k + 1 := by omega
  simp [semop_cons, semopEntry, room, value, raise]

@[simp] theorem semop_lower (v : κ → Nat) (k : κ) (ops : List (Sembuf κ)) :
    semop v (⟨k, -1⟩ :: ops) = if 0 < v k then semop (lower v k) ops else none := by
  have value : ((v k : Int) + -1).toNat = v k - 1 := by omega
  have room : (0 ≤ (v k : Int) + -1) = (0 < v k) := by
    apply propext
    omega
  have not_zero : ¬ (-1 : Int) = 0 := by decide
  simp only [semop_cons, semopEntry, not_zero, ↓reduceIte, value, room]
  split <;> rfl

end OsUnix.Concurrency
