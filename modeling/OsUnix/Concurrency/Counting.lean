import OsUnix.Concurrency.System
import Mathlib.Algebra.BigOperators.Group.Finset.Piecewise
import Mathlib.Algebra.Order.BigOperators.Group.Finset
import Mathlib.Data.Fintype.BigOperators

/-!
# Counting threads

How many threads are at positions of some kind, and the accounting rule: a shared counter that
every step changes as much as it changes the moving thread's own share equals the number of
threads that hold a share.
-/

namespace OsUnix.Concurrency
open Finset

def numbers (n : Nat) : List Int := (List.range n).map fun k : Nat => (k : Int) + 1

theorem numbers_succ (n : Nat) : numbers (n + 1) = numbers n ++ [(n : Int) + 1] := by
  rw [numbers, List.range_succ, List.map_append]
  rfl

variable {ι G L A : Type*} [Fintype ι]

def count (p : L → Bool) (f : ι → L) : Nat :=
  #{i | p (f i) = true}

theorem count_eq_sum (p : L → Bool) (f : ι → L) : count p f = ∑ i, (p (f i)).toNat := by
  rw [count, card_filter]
  refine sum_congr rfl fun i _ => ?_
  cases p (f i) <;> rfl

theorem count_pos_iff {p : L → Bool} {f : ι → L} : 0 < count p f ↔ ∃ i, p (f i) = true := by
  simp [count, card_pos, Finset.Nonempty]

theorem count_eq_zero_iff {p : L → Bool} {f : ι → L} : count p f = 0 ↔ ∀ i, p (f i) = false := by
  simp [count, filter_eq_empty_iff]

theorem count_pos {p : L → Bool} {f : ι → L} {i : ι} (h : p (f i) = true) : 0 < count p f :=
  count_pos_iff.mpr ⟨i, h⟩

theorem count_le_card (p : L → Bool) (f : ι → L) : count p f ≤ Fintype.card ι :=
  card_le_univ _

theorem exists_of_counted {p : L → Bool} {f : ι → L} {c : Int} (counted : c = count p f)
    (nonzero : c ≠ 0) : ∃ i, p (f i) = true := by
  refine count_pos_iff.mp (Nat.pos_of_ne_zero fun zero => nonzero ?_)
  rw [counted, zero]
  rfl

theorem none_of_counted {p : L → Bool} {f : ι → L} {c : Int} (counted : c = count p f)
    (zero : c = 0) : ∀ i, p (f i) = false := by
  refine count_eq_zero_iff.mp (Int.natCast_eq_zero.mp ?_)
  rw [← counted, zero]

theorem count_le_one_iff {p : L → Bool} {f : ι → L} :
    count p f ≤ 1 ↔ ∀ i j, p (f i) = true → p (f j) = true → i = j := by
  simp only [count, card_le_one, mem_filter, mem_univ, true_and]
  exact ⟨fun h i j hi hj => h i hi j hj, fun h i hi j hj => h i j hi hj⟩

theorem count_add (p q : L → Bool) (f : ι → L) (disjoint : ∀ l, ¬ (p l = true ∧ q l = true)) :
    count p f + count q f = count (fun l => p l || q l) f := by
  simp only [count_eq_sum, ← sum_add_distrib]
  refine sum_congr rfl fun i _ => ?_
  have := disjoint (f i)
  cases hp : p (f i) <;> cases hq : q (f i) <;> simp_all

theorem count_mono {p q : L → Bool} {f : ι → L} (imp : ∀ l, p l = true → q l = true) :
    count p f ≤ count q f :=
  card_le_card fun i hi => by
    simp only [mem_filter, mem_univ, true_and] at hi ⊢
    exact imp _ hi

variable [DecidableEq ι]

theorem sum_update_at (w : ι → L → Nat) (f : ι → L) (i : ι) (l : L) :
    ∑ j, w j (Function.update f i l j) + w i (f i) = ∑ j, w j (f j) + w i l := by
  rw [← add_sum_erase univ (fun j => w j (Function.update f i l j)) (mem_univ i),
    ← add_sum_erase univ (fun j => w j (f j)) (mem_univ i)]
  have rest : ∑ j ∈ univ.erase i, w j (Function.update f i l j) = ∑ j ∈ univ.erase i, w j (f j) :=
    sum_congr rfl fun j hj => by rw [Function.update_of_ne (ne_of_mem_erase hj)]
  simp only [Function.update_self]
  omega

theorem sum_update (w : L → Nat) (f : ι → L) (i : ι) (l : L) :
    ∑ j, w (Function.update f i l j) + w (f i) = ∑ j, w (f j) + w l :=
  sum_update_at (fun _ => w) f i l

theorem count_update (p : L → Bool) (f : ι → L) (i : ι) (l : L) :
    count p (Function.update f i l) + (p (f i)).toNat = count p f + (p l).toNat := by
  simpa only [count_eq_sum] using sum_update (fun l => (p l).toNat) f i l

namespace System

variable {M : System ι G L A} {s t : Config ι G L A} {i : ι}

theorem Reachable.accounted {c : Config ι G L A → Int} {w : L → Nat} (h : M.Reachable s)
    (start : c M.init = ∑ j, w (M.locals₀ j))
    (change : ∀ {s i g l a}, M.Reachable s → M.step i s.shared (s.locals i) = some (g, l, a) →
      c (s.move i g l a) + w (s.locals i) = c s + w l) :
    c s = ∑ j, w (s.locals j) := by
  apply h.preserved (I := fun s => c s = ∑ j, w (s.locals j)) start
  intro s i t reach eq step
  obtain ⟨g, l, a, moves, rfl⟩ := next_eq_some.mp step
  have shared := change reach moves
  have own := sum_update w s.locals i l
  simp only [Config.move_locals]
  omega

theorem Reachable.counted {c : Config ι G L A → Int} {p : L → Bool} (h : M.Reachable s)
    (start : c M.init = count p M.locals₀)
    (change : ∀ {s i g l a}, M.Reachable s → M.step i s.shared (s.locals i) = some (g, l, a) →
      c (s.move i g l a) + (p (s.locals i)).toNat = c s + (p l).toNat) :
    c s = count p s.locals := by
  rw [count_eq_sum] at start ⊢
  exact h.accounted (w := fun l => (p l).toNat) start change

end System

end OsUnix.Concurrency
