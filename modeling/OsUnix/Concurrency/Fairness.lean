import OsUnix.Concurrency.System
import Mathlib.Data.List.Nodup
import Mathlib.Order.Filter.AtTopBot.Basic

/-!
# Runs without an end

Strong fairness: a thread that can move again and again does so. When some thread can always move,
letting the one go first that has waited longest gives such a run.
-/

namespace OsUnix.Concurrency.System
open Filter

variable {ι G L A : Type*} [DecidableEq ι] {M : System ι G L A} {s t : Config ι G L A} {i : ι}
  {l : L} {n : Nat}

structure Endless (M : System ι G L A) (s : Config ι G L A) where
  state : Nat → Config ι G L A
  mover : Nat → ι
  start : state 0 = s
  next : ∀ n, M.next (state n) (mover n) = some (state (n + 1))

namespace Endless

variable {p : M.Endless s}

def Fair (p : M.Endless s) : Prop :=
  ∀ i, (∃ᶠ n in atTop, M.Enabled (p.state n) i) → ∃ᶠ n in atTop, p.mover n = i

theorem run (p : M.Endless s) (n : Nat) : M.Run s (p.state n) := by
  induction n with
  | zero => rw [p.start]; exact .refl
  | succ n ih => exact ih.tail (p.next n)

theorem reachable (p : M.Endless M.init) (n : Nat) : M.Reachable (p.state n) := p.run n

theorem moved (p : M.Endless s) (n : Nat) : ∃ g l a,
    M.step (p.mover n) (p.state n).shared ((p.state n).locals (p.mover n)) = some (g, l, a) ∧
      p.state (n + 1) = (p.state n).move (p.mover n) g l a :=
  next_eq_some.mp (p.next n)

theorem stays (other : p.mover n ≠ i) : (p.state (n + 1)).locals i = (p.state n).locals i := by
  obtain ⟨g, l, a, -, eq⟩ := p.moved n
  rw [eq, Config.move_locals, Function.update_of_ne other.symm]

theorem Fair.moves (fair : p.Fair) (at_l : (p.state n).locals i = l)
    (often : ∃ᶠ m in atTop, (p.state m).locals i = l → M.Enabled (p.state m) i) :
    ∃ m ≥ n, (p.state m).locals i = l ∧ p.mover m = i := by
  by_contra! rests
  have stuck (m : Nat) (later : n ≤ m) : (p.state m).locals i = l := by
    induction m, later using Nat.le_induction with
    | base => exact at_l
    | succ m later ih => rw [stays (rests m later ih), ih]
  have again : ∃ᶠ m in atTop, M.Enabled (p.state m) i :=
    often.mp ((eventually_ge_atTop n).mono fun m later enabled => enabled (stuck m later))
  obtain ⟨m, later, moves⟩ := frequently_atTop.mp (fair i again) n
  exact rests m later (stuck m later) moves

theorem Fair.leaves (fair : p.Fair) {P : L → Prop} (rank : L → Nat)
    (often : ∀ l, P l → ∃ᶠ m in atTop, (p.state m).locals i = l → M.Enabled (p.state m) i)
    (falls : ∀ {g l g' l' a}, M.step i g l = some (g', l', a) → P l → rank l' < rank l)
    (inside : P ((p.state n).locals i)) :
    ∃ m ≥ n, P ((p.state m).locals i) ∧ p.mover m = i ∧ ¬ P ((p.state (m + 1)).locals i) := by
  induction r : rank ((p.state n).locals i) using Nat.strong_induction_on generalizing n with
  | _ r ih =>
      obtain ⟨m, later, same, mover⟩ := fair.moves rfl (often _ inside)
      by_cases still : P ((p.state (m + 1)).locals i)
      · obtain ⟨g, l, a, step, eq⟩ := p.moved m
        rw [mover, same] at step
        have arrived : (p.state (m + 1)).locals i = l := by
          rw [eq, mover, Config.move_locals, Function.update_self]
        have lower := falls step inside
        obtain ⟨k, from_m, rest⟩ := ih (rank l) (r ▸ lower) still (by rw [arrived])
        exact ⟨k, by omega, rest⟩
      · exact ⟨m, later, same ▸ inside, mover, still⟩

theorem not_always_falls (p : M.Endless s) (r : Config ι G L A → Nat) :
    ¬ ∀ᶠ n in atTop, r (p.state (n + 1)) < r (p.state n) := by
  intro falls
  obtain ⟨n, falls⟩ := eventually_atTop.mp falls
  have bound (k : Nat) : r (p.state (n + k)) + k ≤ r (p.state n) := by
    induction k with
    | zero => exact le_rfl
    | succ k ih =>
        have lower := falls (n + k) (Nat.le_add_right n k)
        rw [Nat.add_assoc] at lower
        omega
  have := bound (r (p.state n) + 1)
  omega

def cons (first : M.next s i = some t) (p : M.Endless t) : M.Endless s where
  state
    | 0 => s
    | n + 1 => p.state n
  mover
    | 0 => i
    | n + 1 => p.mover n
  start := rfl
  next
    | 0 => first.trans (congrArg some p.start.symm)
    | n + 1 => p.next n

theorem exists_from (run : M.Run s t) (p : M.Endless t) : ∃ (q : M.Endless s) (k : Nat),
    ∀ n, q.state (n + k) = p.state n ∧ q.mover (n + k) = p.mover n := by
  induction run using Relation.ReflTransGen.head_induction_on with
  | refl => exact ⟨p, 0, fun n => ⟨rfl, rfl⟩⟩
  | head first _ ih =>
      obtain ⟨i, first⟩ := first
      obtain ⟨q, k, same⟩ := ih
      exact ⟨q.cons first, k + 1, same⟩

theorem Fair.of_later {q : M.Endless t} {k : Nat} (fair : p.Fair)
    (same : ∀ n, q.state (n + k) = p.state n ∧ q.mover (n + k) = p.mover n) : q.Fair := by
  intro i
  rw [← map_add_atTop_eq_nat k, frequently_map, frequently_map]
  simp only [same]
  exact fair i

theorem exists_endless {X : Type*} (config : X → Config ι G L A) (turn : X → ι → X → Prop)
    {I : X → Prop} {x : X} (start : I x) (goes : ∀ x, I x → ∃ i y, turn x i y ∧ I y)
    (sound : ∀ {x i y}, turn x i y → M.next (config x) i = some (config y)) :
    ∃ (p : M.Endless (config x)) (at_time : Nat → X), at_time 0 = x ∧ ∀ n,
      I (at_time n) ∧ config (at_time n) = p.state n ∧
        turn (at_time n) (p.mover n) (at_time (n + 1)) := by
  choose mover after turns keeps using goes
  let seq : Nat → { y // I y } := fun n =>
    n.rec ⟨x, start⟩ fun _ y => ⟨after y.1 y.2, keeps y.1 y.2⟩
  exact ⟨⟨fun n => config (seq n).1, fun n => mover (seq n).1 (seq n).2, rfl,
    fun n => sound (turns _ _)⟩, fun n => (seq n).1, rfl,
    fun n => ⟨(seq n).2, rfl, turns _ _⟩⟩

def LongestWait (M : System ι G L A) (x : Config ι G L A × List ι) (i : ι)
    (y : Config ι G L A × List ι) : Prop :=
  ∃ before after, x.2 = before ++ i :: after ∧ (∀ j ∈ before, ¬ M.Enabled x.1 j) ∧
    M.next x.1 i = some y.1 ∧ y.2 = before ++ after ++ [i]

variable {x y : Config ι G L A × List ι} {j : ι}

theorem LongestWait.idxOf_le (turn : LongestWait M x i y) (other : i ≠ j) (mem : j ∈ x.2) :
    y.2.idxOf j ≤ x.2.idxOf j ∧ (M.Enabled x.1 j → y.2.idxOf j < x.2.idxOf j) := by
  obtain ⟨before, after, split, blocked, -, rest⟩ := turn
  rw [split, List.mem_append, List.mem_cons] at mem
  rw [split, rest, List.append_assoc]
  by_cases ahead : j ∈ before
  · rw [List.idxOf_append_of_mem ahead, List.idxOf_append_of_mem ahead]
    exact ⟨le_rfl, fun enabled => absurd enabled (blocked j ahead)⟩
  · have behind : j ∈ after := by
      simpa [ahead, other.symm] using mem
    rw [List.idxOf_append_of_notMem ahead, List.idxOf_append_of_notMem ahead,
      List.idxOf_append_of_mem behind, List.idxOf_cons_ne _ other]
    omega

theorem exists_first (queue : List ι) (some_enabled : ∃ i ∈ queue, M.Enabled s i) :
    ∃ before i after, queue = before ++ i :: after ∧ (∀ j ∈ before, ¬ M.Enabled s j) ∧
      M.Enabled s i := by
  induction queue with
  | nil => simp at some_enabled
  | cons i queue ih =>
      by_cases first : M.Enabled s i
      · exact ⟨[], i, queue, rfl, List.forall_mem_nil _, first⟩
      · obtain ⟨before, j, after, rfl, blocked, enabled⟩ := ih (by simpa [first] using some_enabled)
        exact ⟨i :: before, j, after, rfl, List.forall_mem_cons.mpr ⟨first, blocked⟩, enabled⟩

theorem exists_fair [Fintype ι] {I : Config ι G L A → Prop} (start : I s)
    (keep : ∀ {t i u}, I t → M.next t i = some u → I u) (live : ∀ t, I t → ∃ i, M.Enabled t i) :
    ∃ p : M.Endless s, p.Fair := by
  obtain ⟨p, at_time, -, turns⟩ := exists_endless (M := M) Prod.fst (LongestWait M)
    (I := fun x => I x.1 ∧ ∀ i, i ∈ x.2)
    (x := (s, Finset.univ.toList)) ⟨start, by simp⟩ (fun x ⟨inv, all⟩ => by
      obtain ⟨i, enabled⟩ := live x.1 inv
      obtain ⟨before, j, after, split, blocked, enabled⟩ := exists_first x.2 ⟨i, all i, enabled⟩
      obtain ⟨t, next⟩ := enabled.exists_step
      refine ⟨j, (t, before ++ after ++ [j]), ⟨before, after, split, blocked, next, rfl⟩,
        keep inv next, fun k => ?_⟩
      have mem := all k
      rw [split] at mem
      simp only [List.mem_append, List.mem_cons] at mem ⊢
      tauto) fun ⟨_, _, _, _, next, _⟩ => next
  refine ⟨p, fun i often => ?_⟩
  by_contra seldom
  obtain ⟨n, rests⟩ := eventually_atTop.mp (not_frequently.mp seldom)
  have drop (m : Nat) (later : n ≤ m) :=
    (turns m).2.2.idxOf_le (rests m later) ((turns m).1.2 i)
  have waits (m : Nat) (later : n ≤ m) (k : Nat) :
      (at_time (m + k)).2.idxOf i ≤ (at_time m).2.idxOf i := by
    induction k with
    | zero => exact le_rfl
    | succ k ih => exact ((drop (m + k) (by omega)).1).trans ih
  have never (r : Nat) (m : Nat) (later : n ≤ m) : (at_time m).2.idxOf i ≠ r := by
    induction r using Nat.strong_induction_on generalizing m with
    | _ r ih =>
        rintro rfl
        obtain ⟨k, from_m, enabled⟩ := frequently_atTop.mp often m
        rw [← (turns k).2.1] at enabled
        have lower := (drop k (later.trans from_m)).2 enabled
        have bound := waits m later (k - m)
        rw [Nat.add_sub_cancel' from_m] at bound
        exact ih _ (lower.trans_le bound) (k + 1) (by omega) rfl
  exact never _ n le_rfl rfl

end Endless

end OsUnix.Concurrency.System
