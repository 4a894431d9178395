import Mathlib.Data.Fintype.Basic
import Mathlib.Logic.Function.Basic
import Mathlib.Logic.Relation
import Mathlib.Order.WellFounded

/-!
# Interleaved threads

A system is a shared state and one local state for each thread. A run lets one thread at a time
take its next step, in any order; the trace records the action of every step.
-/

namespace OsUnix.Concurrency

variable {ι G L A : Type*}

@[ext] structure Config (ι G L A : Type*) where
  shared : G
  locals : ι → L
  trace : List (ι × A)

/-- `step i g l` is the next step of thread `i`, or `none` when it is blocked or has ended. -/
structure System (ι G L A : Type*) where
  shared₀ : G
  locals₀ : ι → L
  step : ι → G → L → Option (G × L × A)

namespace Config
variable [DecidableEq ι]

def move (s : Config ι G L A) (i : ι) (g : G) (l : L) (a : A) : Config ι G L A :=
  ⟨g, Function.update s.locals i l, s.trace ++ [(i, a)]⟩

@[simp] theorem move_shared (s : Config ι G L A) (i : ι) (g : G) (l : L) (a : A) :
    (s.move i g l a).shared = g := rfl

@[simp] theorem move_locals (s : Config ι G L A) (i : ι) (g : G) (l : L) (a : A) :
    (s.move i g l a).locals = Function.update s.locals i l := rfl

@[simp] theorem move_trace (s : Config ι G L A) (i : ι) (g : G) (l : L) (a : A) :
    (s.move i g l a).trace = s.trace ++ [(i, a)] := rfl

def steps (s : Config ι G L A) (i : ι) : Nat := s.trace.countP fun e => e.1 = i

theorem steps_move_self (s : Config ι G L A) (i : ι) (g : G) (l : L) (a : A) :
    (s.move i g l a).steps i = s.steps i + 1 := by
  simp [steps]

theorem steps_move_of_ne {i j : ι} (s : Config ι G L A) (ne : i ≠ j) (g : G) (l : L) (a : A) :
    (s.move j g l a).steps i = s.steps i := by
  simp [steps, Ne.symm ne]

end Config

namespace System

def init (M : System ι G L A) : Config ι G L A := ⟨M.shared₀, M.locals₀, []⟩

@[simp] theorem init_shared (M : System ι G L A) : M.init.shared = M.shared₀ := rfl

@[simp] theorem init_locals (M : System ι G L A) : M.init.locals = M.locals₀ := rfl

@[simp] theorem init_trace (M : System ι G L A) : M.init.trace = [] := rfl

variable [DecidableEq ι]

def next (M : System ι G L A) (s : Config ι G L A) (i : ι) : Option (Config ι G L A) :=
  (M.step i s.shared (s.locals i)).map fun r => s.move i r.1 r.2.1 r.2.2

def Enabled (M : System ι G L A) (s : Config ι G L A) (i : ι) : Prop :=
  (M.next s i).isSome

def Step (M : System ι G L A) (s t : Config ι G L A) : Prop :=
  ∃ i, M.next s i = some t

def Run (M : System ι G L A) : Config ι G L A → Config ι G L A → Prop :=
  Relation.ReflTransGen M.Step

def Reachable (M : System ι G L A) (s : Config ι G L A) : Prop :=
  M.Run M.init s

/-- Reachable by a run each of whose steps is taken by a thread, and in a state, that `allowed`
admits. -/
def ReachableIf (M : System ι G L A) (allowed : Config ι G L A → ι → Prop)
    (s : Config ι G L A) : Prop :=
  Relation.ReflTransGen (fun s t => ∃ i, allowed s i ∧ M.next s i = some t) M.init s

def Terminal (M : System ι G L A) (s : Config ι G L A) : Prop :=
  ∀ i, M.next s i = none

variable {M : System ι G L A} {s t u : Config ι G L A} {i : ι}
  {allowed : Config ι G L A → ι → Prop}

theorem next_eq_some : M.next s i = some t ↔
    ∃ g l a, M.step i s.shared (s.locals i) = some (g, l, a) ∧ t = s.move i g l a := by
  simp only [next, Option.map_eq_some_iff, Prod.exists]
  constructor
  · rintro ⟨g, l, a, h, rfl⟩
    exact ⟨g, l, a, h, rfl⟩
  · rintro ⟨g, l, a, h, rfl⟩
    exact ⟨g, l, a, h, rfl⟩

theorem enabled_iff : M.Enabled s i ↔ (M.step i s.shared (s.locals i)).isSome := by
  simp [Enabled, next]

theorem Enabled.exists_step (h : M.Enabled s i) : ∃ t, M.next s i = some t :=
  Option.isSome_iff_exists.mp h

theorem Run.refl : M.Run s s := Relation.ReflTransGen.refl

theorem Run.trans (h : M.Run s t) (k : M.Run t u) : M.Run s u :=
  Relation.ReflTransGen.trans h k

theorem Run.tail (h : M.Run s t) (k : M.next t i = some u) : M.Run s u :=
  Relation.ReflTransGen.tail h ⟨i, k⟩

theorem Reachable.trans (h : M.Reachable s) (k : M.Run s t) : M.Reachable t :=
  Run.trans h k

theorem ReachableIf.reachable (h : M.ReachableIf allowed s) : M.Reachable s :=
  Relation.ReflTransGen.mono (fun _ _ ⟨i, _, step⟩ => ⟨i, step⟩) _ _ h

theorem ReachableIf.mono {weaker : Config ι G L A → ι → Prop} (h : M.ReachableIf allowed s)
    (imp : ∀ s i, allowed s i → weaker s i) : M.ReachableIf weaker s :=
  Relation.ReflTransGen.mono (fun _ _ ⟨i, ok, step⟩ => ⟨i, imp _ _ ok, step⟩) _ _ h

theorem Reachable.reachableIf (h : M.Reachable s)
    (always : ∀ s i, M.Reachable s → allowed s i) : M.ReachableIf allowed s := by
  induction h with
  | refl => exact Relation.ReflTransGen.refl
  | tail before last ih =>
      obtain ⟨i, last⟩ := last
      exact Relation.ReflTransGen.tail ih ⟨i, always _ _ before, last⟩

theorem Reachable.preserved {I : Config ι G L A → Prop} (h : M.Reachable s) (start : I M.init)
    (step : ∀ {s i t}, M.Reachable s → I s → M.next s i = some t → I t) : I s := by
  induction h with
  | refl => exact start
  | tail before last ih =>
      obtain ⟨i, last⟩ := last
      exact step before ih last

theorem Reachable.invariant {I : Config ι G L A → Prop} (h : M.Reachable s) (start : I M.init)
    (step : ∀ {s i t}, I s → M.next s i = some t → I t) : I s :=
  h.preserved start fun _ inv next => step inv next

theorem Reachable.steps_le (rank : L → Nat) (h : M.Reachable s)
    (falls : ∀ {s i g l a}, M.Reachable s → M.step i s.shared (s.locals i) = some (g, l, a) →
      rank l < rank (s.locals i)) (i : ι) :
    s.steps i + rank (s.locals i) ≤ rank (M.locals₀ i) := by
  refine h.preserved (I := fun s => s.steps i + rank (s.locals i) ≤ rank (M.locals₀ i)) ?_ ?_
  · simp [Config.steps]
  · intro s j t reach bound step
    obtain ⟨g, l, a, moves, rfl⟩ := next_eq_some.mp step
    have lower := falls reach moves
    by_cases here : i = j
    · subst here
      rw [Config.steps_move_self, Config.move_locals, Function.update_self]
      omega
    · rw [s.steps_move_of_ne here, Config.move_locals, Function.update_of_ne here]
      exact bound

theorem Reachable.each {Q : ι → L → Prop} (h : M.Reachable s) (start : ∀ i, Q i (M.locals₀ i))
    (step : ∀ {i g l g' l' a}, M.step i g l = some (g', l', a) → Q i l → Q i l') (i : ι) :
    Q i (s.locals i) := by
  refine h.invariant (I := fun s => ∀ i, Q i (s.locals i)) start ?_ i
  intro s j t inv next
  obtain ⟨g, l, a, moves, rfl⟩ := next_eq_some.mp next
  exact (Function.forall_update_iff s.locals Q).mpr ⟨step moves (inv j), fun i _ => inv i⟩

theorem ReachableIf.invariant {I : Config ι G L A → Prop} (h : M.ReachableIf allowed s)
    (start : I M.init)
    (step : ∀ {s i t}, M.ReachableIf allowed s → I s → allowed s i → M.next s i = some t → I t) :
    I s := by
  induction h with
  | refl => exact start
  | tail before last ih =>
      obtain ⟨i, ok, last⟩ := last
      exact step before ih ok last

theorem exists_update {p : L → Bool} {f : ι → L} {l : L} (h : ∃ j, p (f j) = true)
    (keep : p (f i) = true → p l = true) : ∃ j, p (Function.update f i l j) = true := by
  obtain ⟨j, at_j⟩ := h
  by_cases eq : j = i
  · subst eq
    exact ⟨j, by simpa using keep at_j⟩
  · exact ⟨j, by simpa [eq] using at_j⟩

theorem exists_update_self {p : L → Bool} {f : ι → L} {l : L} (at_l : p l = true) :
    ∃ j, p (Function.update f i l j) = true :=
  ⟨i, by simpa using at_l⟩

theorem Run.split {a : A} {mid after : List (ι × A)} (h : M.Run s t)
    (trace : t.trace = s.trace ++ (mid ++ (i, a) :: after)) :
    ∃ u g l, M.Run s u ∧ u.trace = s.trace ++ mid ∧
      M.step i u.shared (u.locals i) = some (g, l, a) ∧ M.Run (u.move i g l a) t := by
  induction h generalizing after with
  | refl => simp at trace
  | @tail t u earlier last ih =>
      obtain ⟨j, last⟩ := last
      obtain ⟨g, l, b, step, rfl⟩ := next_eq_some.mp last
      rw [Config.move_trace] at trace
      induction after using List.reverseRecOn with
      | nil =>
          obtain ⟨same, event⟩ := List.append_inj' (trace.trans (List.append_assoc ..).symm) rfl
          simp only [List.cons.injEq, Prod.mk.injEq, and_true] at event
          obtain ⟨rfl, rfl⟩ := event
          exact ⟨t, g, l, earlier, same, step, .refl⟩
      | append_singleton after e =>
          have regrouped : t.trace ++ [(j, b)] = (s.trace ++ (mid ++ (i, a) :: after)) ++ [e] := by
            simpa using trace
          obtain ⟨u, g', l', run, eq, emits, later⟩ := ih (List.append_inj' regrouped rfl).1
          exact ⟨u, g', l', run, eq, emits, later.tail last⟩

theorem Reachable.split {a : A} {before after : List (ι × A)} (h : M.Reachable s)
    (trace : s.trace = before ++ (i, a) :: after) :
    ∃ u g l, M.Reachable u ∧ u.trace = before ∧ M.step i u.shared (u.locals i) = some (g, l, a) ∧
      M.Run (u.move i g l a) s :=
  Run.split h trace

theorem Run.until {P : Config ι G L A → Prop} (h : M.Run s t) (ends : ι × A → Prop)
    (reach : M.Reachable s) (start : P s)
    (step : ∀ {s i g l a}, M.Reachable s → P s → ¬ ends (i, a) →
      M.step i s.shared (s.locals i) = some (g, l, a) → P (s.move i g l a)) :
    ∃ later, t.trace = s.trace ++ later ∧ ((∃ e ∈ later, ends e) ∨ P t) := by
  induction h with
  | refl => exact ⟨[], by simp, .inr start⟩
  | @tail t u earlier last ih =>
      obtain ⟨later, trace, met | kept⟩ := ih
      all_goals
        obtain ⟨j, last⟩ := last
        obtain ⟨g, l, b, moves, rfl⟩ := next_eq_some.mp last
        refine ⟨later ++ [(j, b)], by simp [trace], ?_⟩
      · obtain ⟨e, mem, ended⟩ := met
        exact .inl ⟨e, List.mem_append_left _ mem, ended⟩
      · by_cases ended : ends (j, b)
        · exact .inl ⟨_, List.mem_append_right _ (List.mem_singleton_self _), ended⟩
        · exact .inr (step (reach.trans earlier) kept ended moves)

theorem Run.until_event {P : Config ι G L A → Prop} {a : A} {mid after : List (ι × A)}
    (h : M.Run s t) (ends : ι × A → Prop) (reach : M.Reachable s) (start : P s)
    (step : ∀ {s i g l a}, M.Reachable s → P s → ¬ ends (i, a) →
      M.step i s.shared (s.locals i) = some (g, l, a) → P (s.move i g l a))
    (trace : t.trace = s.trace ++ (mid ++ (i, a) :: after)) :
    (∃ e ∈ mid, ends e) ∨ ∃ u g l, M.Reachable u ∧ P u ∧ u.trace = s.trace ++ mid ∧
      M.step i u.shared (u.locals i) = some (g, l, a) ∧ M.Run (u.move i g l a) t := by
  obtain ⟨u, g, l, first, eq, emits, rest⟩ := h.split trace
  obtain ⟨later, eq', ended⟩ := first.until ends reach start step
  obtain rfl : later = mid := List.append_cancel_left (eq'.symm.trans eq)
  exact ended.imp_right fun kept => ⟨u, g, l, reach.trans first, kept, eq, emits, rest⟩

def exec (M : System ι G L A) : Config ι G L A → List ι → Option (Config ι G L A)
  | s, [] => some s
  | s, i :: rest => (M.next s i).bind fun t => M.exec t rest

theorem run_of_exec {schedule : List ι} (h : M.exec s schedule = some t) : M.Run s t := by
  induction schedule generalizing s with
  | nil =>
      obtain rfl : s = t := by simpa [exec] using h
      exact .refl
  | cons i rest ih =>
      obtain ⟨u, first, later⟩ := Option.bind_eq_some_iff.mp h
      exact Relation.ReflTransGen.head ⟨i, first⟩ (ih later)

theorem exists_reachable_of_exec (schedule : List ι) (p : Config ι G L A → Bool)
    (h : (M.exec M.init schedule).any p = true) : ∃ s, M.Reachable s ∧ p s = true := by
  obtain ⟨s, ends, holds⟩ := (Option.any_eq_true p _).mp h
  exact ⟨s, run_of_exec ends, holds⟩

def execIf (M : System ι G L A) (allowed : Config ι G L A → ι → Prop)
    [∀ s i, Decidable (allowed s i)] : Config ι G L A → List ι → Option (Config ι G L A)
  | s, [] => some s
  | s, i :: rest =>
      if allowed s i then (M.next s i).bind fun t => M.execIf allowed t rest else none

theorem reachableIf_of_execIf [∀ s i, Decidable (allowed s i)] {schedule : List ι}
    (start : M.ReachableIf allowed s) (h : M.execIf allowed s schedule = some t) :
    M.ReachableIf allowed t := by
  induction schedule generalizing s with
  | nil =>
      obtain rfl : s = t := by simpa [execIf] using h
      exact start
  | cons i rest ih =>
      rw [execIf] at h
      split at h
      · rename_i ok
        obtain ⟨u, first, later⟩ := Option.bind_eq_some_iff.mp h
        exact ih (Relation.ReflTransGen.tail start ⟨i, ok, first⟩) later
      · cases h

def solo (M : System ι G L A) (i : ι) : Nat → G → L → Option (G × L × List A)
  | 0, g, l => some (g, l, [])
  | n + 1, g, l => (M.step i g l).bind fun r =>
      (M.solo i n r.1 r.2.1).map fun q => (q.1, q.2.1, r.2.2 :: q.2.2)

def SoloRun (M : System ι G L A) (i : ι) : Config ι G L A → Config ι G L A → Prop :=
  Relation.ReflTransGen fun s t => M.next s i = some t

theorem SoloRun.run (h : M.SoloRun i s t) : M.Run s t :=
  Relation.ReflTransGen.mono (fun _ _ step => ⟨i, step⟩) _ _ h

theorem SoloRun.others (h : M.SoloRun i s t) : ∀ j, j ≠ i → t.locals j = s.locals j := by
  induction h with
  | refl => exact fun _ _ => rfl
  | tail _ last ih =>
      obtain ⟨g, l, a, _, rfl⟩ := next_eq_some.mp last
      intro j other
      rw [Config.move_locals, Function.update_of_ne other, ih j other]

theorem soloRun_of_solo {n : Nat} {g : G} {l : L} {acts : List A}
    (h : M.solo i n s.shared (s.locals i) = some (g, l, acts)) :
    M.SoloRun i s ⟨g, Function.update s.locals i l, s.trace ++ acts.map (i, ·)⟩ := by
  induction n generalizing s acts with
  | zero =>
      simp only [solo, Option.some.injEq, Prod.mk.injEq] at h
      obtain ⟨rfl, rfl, rfl⟩ := h
      simp only [Function.update_eq_self, List.map_nil, List.append_nil]
      exact Relation.ReflTransGen.refl
  | succ n ih =>
      simp only [solo] at h
      obtain ⟨⟨g₁, l₁, a⟩, first, rest⟩ := Option.bind_eq_some_iff.mp h
      obtain ⟨⟨g₂, l₂, later⟩, rest, eq⟩ := Option.map_eq_some_iff.mp rest
      simp only [Prod.mk.injEq] at eq
      obtain ⟨rfl, rfl, rfl⟩ := eq
      have step : M.next s i = some (s.move i g₁ l₁ a) := next_eq_some.mpr ⟨_, _, _, first, rfl⟩
      have tail := ih (s := s.move i g₁ l₁ a) (by simpa using rest)
      simp only [Config.move_locals, Function.update_idem, Config.move_trace,
        List.append_assoc, List.singleton_append] at tail
      exact Relation.ReflTransGen.head step tail

theorem exists_soloRun {n : Nat} {g g' : G} {l l' : L} {acts : List A} (shared : s.shared = g)
    (at_i : s.locals i = l) (h : M.solo i n g l = some (g', l', acts)) :
    ∃ t, M.SoloRun i s t ∧ t.shared = g' ∧ t.locals i = l' ∧
      (∀ j, j ≠ i → t.locals j = s.locals j) ∧ t.trace = s.trace ++ acts.map (i, ·) := by
  subst shared at_i
  exact ⟨_, soloRun_of_solo h, rfl, Function.update_self _ _ _,
    fun j other => Function.update_of_ne other _ _, rfl⟩

def SoloTo (M : System ι G L A) (i : ι) (s : Config ι G L A) (g : G) (l : L) : Prop :=
  ∃ t, M.SoloRun i s t ∧ t.shared = g ∧ t.locals i = l ∧ ∀ j, j ≠ i → t.locals j = s.locals j

theorem SoloTo.start : M.SoloTo i s s.shared (s.locals i) :=
  ⟨s, Relation.ReflTransGen.refl, rfl, rfl, fun _ _ => rfl⟩

theorem SoloTo.step {g g' : G} {l l' : L} {a : A} (h : M.SoloTo i s g l)
    (moves : M.step i g l = some (g', l', a)) : M.SoloTo i s g' l' := by
  obtain ⟨t, run, rfl, rfl, others⟩ := h
  refine ⟨t.move i g' l' a, Relation.ReflTransGen.tail run (next_eq_some.mpr ⟨_, _, _, moves, rfl⟩),
    rfl, Function.update_self _ _ _, fun j other => ?_⟩
  rw [Config.move_locals, Function.update_of_ne other, others j other]

theorem no_infinite_run {r : Config ι G L A → Nat}
    (falls : ∀ {s i t}, M.Reachable s → M.next s i = some t → r t < r s) :
    ¬ ∃ run : Nat → Config ι G L A, run 0 = M.init ∧ ∀ n, M.Step (run n) (run (n + 1)) := by
  rintro ⟨run, start, step⟩
  have reach (n : Nat) : M.Reachable (run n) := by
    induction n with
    | zero => rw [start]; exact Run.refl
    | succ n ih => exact Relation.ReflTransGen.tail ih (step n)
  have bound (n : Nat) : r (run n) + n ≤ r (run 0) := by
    induction n with
    | zero => simp
    | succ n ih =>
        obtain ⟨i, move⟩ := step n
        have := falls (reach n) move
        omega
  have := bound (r (run 0) + 1)
  omega

theorem exists_terminal {r : Config ι G L A → Nat}
    (falls : ∀ {s i t}, M.Reachable s → M.next s i = some t → r t < r s)
    (h : M.Reachable s) : ∃ t, M.Run s t ∧ M.Terminal t := by
  induction n : r s using Nat.strong_induction_on generalizing s with
  | _ n ih =>
      by_cases stop : M.Terminal s
      · exact ⟨s, .refl, stop⟩
      · simp only [Terminal, not_forall] at stop
        obtain ⟨i, moves⟩ := stop
        obtain ⟨t, step⟩ := Option.ne_none_iff_exists'.mp moves
        obtain ⟨u, run, last⟩ := ih (r t) (by have := falls h step; omega) (Run.tail h step) rfl
        exact ⟨u, Relation.ReflTransGen.head ⟨i, step⟩ run, last⟩

end System

end OsUnix.Concurrency
