import Mathlib.Data.Option.Basic

/-!
# Components

A component answers one operation after the other. An operation without an answer never returns.
-/

namespace OsUnix.Kernel

variable {S T O R Q V : Type*}

structure Component (S O R : Type*) where
  start : S
  step : S → O → Option (S × R)

namespace Component

def exec (C : Component S O R) : S → List O → Option (S × List R)
  | s, [] => some (s, [])
  | s, o :: rest => (C.step s o).bind fun r => (C.exec r.1 rest).map fun q => (q.1, r.2 :: q.2)

def Reachable (C : Component S O R) (s : S) : Prop :=
  ∃ ops rs, C.exec C.start ops = some (s, rs)

/-- Every step of the run of `ops` from `s` meets `P`. -/
def Always (C : Component S O R) (P : S → O → S → R → Prop) : S → List O → Prop
  | _, [] => True
  | s, o :: rest => ∀ t r, C.step s o = some (t, r) → P s o t r ∧ C.Always P t rest

def Before (C : Component S O R) (Q : S → O → Prop) : S → List O → Prop
  | _, [] => True
  | s, o :: rest => Q s o ∧ ∀ t r, C.step s o = some (t, r) → C.Before Q t rest

/-- Every operation of `ops` is answered, by a step that meets `P`. -/
def Serves (C : Component S O R) (P : S → O → S → R → Prop) : S → List O → Prop
  | _, [] => True
  | s, o :: rest => ∃ t r, C.step s o = some (t, r) ∧ P s o t r ∧ C.Serves P t rest

def tracking (C : Component S O R) (start : T) (record : T → O → T) : Component (S × T) O R where
  start := (C.start, start)
  step s o := (C.step s.1 o).map fun r => ((r.1, record s.2 o), r.2)

def silent (start : S) (step : S → O → Option S) : Component S O Unit where
  start := start
  step s o := (step s o).map fun t => (t, ())

variable {C : Component S O R} {D : Component T O Q} {s t u : S} {o : O} {ops later : List O}
  {rs qs : List R} {P : S → O → S → R → Prop}

theorem exec_eq_some : C.exec s (o :: ops) = some (u, rs) ↔
    ∃ t r qs, C.step s o = some (t, r) ∧ C.exec t ops = some (u, qs) ∧ rs = r :: qs := by
  simp only [exec, Option.bind_eq_some_iff, Option.map_eq_some_iff, Prod.mk.injEq, Prod.exists]
  constructor
  · rintro ⟨t, r, first, u', qs, rest, rfl, rfl⟩
    exact ⟨t, r, qs, first, rest, rfl⟩
  · rintro ⟨t, r, qs, first, rest, rfl⟩
    exact ⟨t, r, first, u, qs, rest, rfl, rfl⟩

theorem exec_cons {r : R} (first : C.step s o = some (t, r)) (rest : C.exec t ops = some (u, rs)) :
    C.exec s (o :: ops) = some (u, r :: rs) :=
  exec_eq_some.mpr ⟨t, r, rs, first, rest, rfl⟩

theorem exec_append (first : C.exec s ops = some (t, rs)) (rest : C.exec t later = some (u, qs)) :
    C.exec s (ops ++ later) = some (u, rs ++ qs) := by
  induction ops generalizing s rs with
  | nil =>
      obtain ⟨rfl, rfl⟩ : s = t ∧ [] = rs := by simpa [exec] using first
      exact rest
  | cons o ops ih =>
      obtain ⟨v, r, ps, step, tail, rfl⟩ := exec_eq_some.mp first
      exact exec_cons step (ih tail)

theorem exec_split (run : C.exec s (ops ++ later) = some (u, rs)) :
    ∃ t ps qs, C.exec s ops = some (t, ps) ∧ C.exec t later = some (u, qs) ∧ rs = ps ++ qs := by
  induction ops generalizing s rs with
  | nil => exact ⟨s, [], rs, rfl, run, rfl⟩
  | cons o ops ih =>
      obtain ⟨v, r, ps, step, tail, rfl⟩ := exec_eq_some.mp run
      obtain ⟨t, ps, qs, first, rest, rfl⟩ := ih tail
      exact ⟨t, r :: ps, qs, exec_cons step first, rest, rfl⟩

theorem Reachable.start : C.Reachable C.start := ⟨[], [], rfl⟩

theorem Reachable.exec (h : C.Reachable s) (run : C.exec s ops = some (t, rs)) :
    C.Reachable t := by
  obtain ⟨before, _, first⟩ := h
  exact ⟨before ++ ops, _, exec_append first run⟩

theorem exec_invariant {I : S → Prop} (run : C.exec s ops = some (t, rs)) (start : I s)
    (step : ∀ {s o t r}, I s → C.step s o = some (t, r) → I t) : I t := by
  induction ops generalizing s rs with
  | nil =>
      obtain ⟨rfl, -⟩ : s = t ∧ [] = rs := by simpa [Component.exec] using run
      exact start
  | cons o ops ih =>
      obtain ⟨u, r, ps, first, tail, rfl⟩ := exec_eq_some.mp run
      exact ih tail (step start first)

theorem Reachable.invariant {I : S → Prop} (h : C.Reachable s) (start : I C.start)
    (step : ∀ {s o t r}, I s → C.step s o = some (t, r) → I t) : I s := by
  obtain ⟨ops, rs, run⟩ := h
  exact exec_invariant run start step

theorem exec_answers {I : S → List R → Prop} (run : C.exec C.start ops = some (t, rs))
    (start : I C.start [])
    (step : ∀ {before s qs o t r}, before ++ [o] <+: ops → C.exec C.start before = some (s, qs) →
      I s qs → C.step s o = some (t, r) → I t (qs ++ [r])) : I t rs := by
  suffices later : ∀ {before after s qs}, before ++ after = ops →
      C.exec C.start before = some (s, qs) → I s qs →
      ∀ {rs}, C.exec s after = some (t, rs) → I t (qs ++ rs) by
    exact later rfl (show C.exec C.start [] = some (C.start, []) from rfl) start run
  intro before after
  induction after generalizing before with
  | nil =>
      intro s qs _ _ now rs run
      obtain ⟨rfl, rfl⟩ : s = t ∧ [] = rs := by simpa [exec] using run
      rwa [List.append_nil]
  | cons o after ih =>
      intro s qs whole earlier now rs run
      obtain ⟨u, r, ps, first, tail, rfl⟩ := exec_eq_some.mp run
      have one : C.exec s [o] = some (u, [r]) := exec_cons first rfl
      have split : before ++ [o] ++ after = ops := by rw [← whole]; simp
      have later := ih split (exec_append earlier one) (step ⟨after, split⟩ earlier now first) tail
      rwa [List.append_assoc] at later

theorem exists_exec {I : S → Prop} (start : I s)
    (step : ∀ {s} o, I s → ∃ t r, C.step s o = some (t, r) ∧ I t) (ops : List O) :
    ∃ t rs, C.exec s ops = some (t, rs) ∧ I t := by
  induction ops generalizing s with
  | nil => exact ⟨s, [], rfl, start⟩
  | cons o ops ih =>
      obtain ⟨t, r, first, next⟩ := step o start
      obtain ⟨u, rs, rest, last⟩ := ih next
      exact ⟨u, r :: rs, exec_cons first rest, last⟩

theorem always_true (ops : List O) : C.Always (fun _ _ _ _ => True) s ops := by
  induction ops generalizing s with
  | nil => trivial
  | cons o ops ih => exact fun _ _ _ => ⟨trivial, ih⟩

theorem before_of_forall {Q : S → O → Prop} (h : ∀ o ∈ ops, ∀ s, Q s o) : C.Before Q s ops := by
  induction ops generalizing s with
  | nil => trivial
  | cons o ops ih =>
      obtain ⟨here, later⟩ := List.forall_mem_cons.mp h
      exact ⟨here s, fun _ _ _ => ih later⟩

theorem Always.congr {P' : S → O → S → R → Prop} {I : S → Prop} (inv : I s)
    (same : ∀ {s o t r}, I s → C.step s o = some (t, r) → (P s o t r ↔ P' s o t r))
    (keep : ∀ {s o t r}, I s → C.step s o = some (t, r) → P s o t r → I t) :
    C.Always P s ops ↔ C.Always P' s ops := by
  induction ops generalizing s with
  | nil => rfl
  | cons o ops ih =>
      refine forall_congr' fun t => forall_congr' fun r => imp_congr_right fun step => ?_
      constructor
      · rintro ⟨here, rest⟩
        exact ⟨(same inv step).mp here, (ih (keep inv step here)).mp rest⟩
      · rintro ⟨here, rest⟩
        have here := (same inv step).mpr here
        exact ⟨here, (ih (keep inv step here)).mpr rest⟩

theorem before_cons {Q : S → O → Prop} {r : R} (step : C.step s o = some (t, r)) :
    C.Before Q s (o :: ops) ↔ Q s o ∧ C.Before Q t ops := by
  refine and_congr_right fun _ => ⟨fun rest => rest t r step, fun rest t' r' step' => ?_⟩
  rw [step] at step'
  cases step'
  exact rest

theorem before_append {Q : S → O → Prop} : C.Before Q s (ops ++ later) ↔
    C.Before Q s ops ∧ ∀ t rs, C.exec s ops = some (t, rs) → C.Before Q t later := by
  induction ops generalizing s with
  | nil =>
      refine ⟨fun h => ⟨trivial, fun t rs run => ?_⟩, fun h => h.2 s [] rfl⟩
      obtain ⟨rfl, -⟩ : s = t ∧ [] = rs := by simpa [exec] using run
      exact h
  | cons o ops ih =>
      constructor
      · rintro ⟨here, rest⟩
        refine ⟨⟨here, fun t r step => (ih.mp (rest t r step)).1⟩, fun u rs run => ?_⟩
        obtain ⟨t, r, qs, step, tail, -⟩ := exec_eq_some.mp run
        exact (ih.mp (rest t r step)).2 u qs tail
      · rintro ⟨⟨here, rest⟩, ends⟩
        refine ⟨here, fun t r step => ih.mpr ⟨rest t r step, fun u rs run => ?_⟩⟩
        exact ends u (r :: rs) (exec_cons step run)

theorem before_of_invariant {I : S → Prop} {Q : S → O → Prop} (inv : I s)
    (now : ∀ {s}, ∀ o ∈ ops, I s → Q s o)
    (keep : ∀ {s o t r}, o ∈ ops → I s → C.step s o = some (t, r) → I t) : C.Before Q s ops := by
  induction ops generalizing s with
  | nil => trivial
  | cons o ops ih =>
      refine ⟨now o List.mem_cons_self inv, fun t r step => ?_⟩
      apply ih (keep List.mem_cons_self inv step)
      · exact fun o' mem => now o' (List.mem_cons_of_mem o mem)
      · exact fun mem => keep (List.mem_cons_of_mem o mem)

theorem Before.always {I : S → Prop} {Q : S → O → Prop} (before : C.Before Q s ops) (inv : I s)
    (meets : ∀ {s o t r}, I s → Q s o → C.step s o = some (t, r) → P s o t r ∧ I t) :
    C.Always P s ops := by
  induction ops generalizing s with
  | nil => trivial
  | cons o ops ih =>
      intro t r step
      obtain ⟨now, next⟩ := meets inv before.1 step
      exact ⟨now, ih (before.2 t r step) next⟩

theorem always_iff_before {I : S → Prop} {Q : S → O → Prop} (inv : I s)
    (same : ∀ {s o t r}, I s → C.step s o = some (t, r) → (P s o t r ↔ Q s o))
    (unanswered : ∀ {s o}, I s → C.step s o = none → Q s o)
    (keep : ∀ {s o t r}, I s → Q s o → C.step s o = some (t, r) → I t) :
    C.Always P s ops ↔ C.Before Q s ops := by
  constructor
  · induction ops generalizing s with
    | nil => exact fun _ => trivial
    | cons o ops ih =>
        intro always
        have now : Q s o := by
          cases step : C.step s o with
          | none => exact unanswered inv step
          | some r => exact (same inv step).mp (always r.1 r.2 step).1
        exact ⟨now, fun t r step => ih (keep inv now step) (always t r step).2⟩
  · exact fun before => before.always inv fun inv now step =>
      ⟨(same inv step).mpr now, keep inv now step⟩

theorem Before.invariant {I : S → Prop} {Q : S → O → Prop} (before : C.Before Q s ops) (inv : I s)
    (keep : ∀ {s o t r}, I s → Q s o → C.step s o = some (t, r) → I t)
    (run : C.exec s ops = some (t, rs)) : I t := by
  induction ops generalizing s rs with
  | nil =>
      obtain ⟨rfl, -⟩ : s = t ∧ [] = rs := by simpa [exec] using run
      exact inv
  | cons o ops ih =>
      obtain ⟨u, r, ps, step, tail, -⟩ := exec_eq_some.mp run
      exact ih (before.2 u r step) (keep inv before.1 step) tail

theorem exists_first_exception {Q : S → O → Prop} (broken : ¬ C.Before Q s ops) :
    ∃ before o after t rs, ops = before ++ o :: after ∧ C.exec s before = some (t, rs) ∧
      C.Before Q s before ∧ ¬ Q t o := by
  induction ops generalizing s with
  | nil => exact absurd trivial broken
  | cons o ops ih =>
      by_cases here : Q s o
      · simp only [Before, here, true_and, not_forall] at broken
        obtain ⟨t, r, step, broken⟩ := broken
        obtain ⟨before, o', after, u, rs, rfl, run, holds, breaks⟩ := ih broken
        exact ⟨o :: before, o', after, u, r :: rs, rfl, exec_cons step run,
          (before_cons step).mpr ⟨here, holds⟩, breaks⟩
      · exact ⟨[], o, ops, s, [], rfl, rfl, trivial, here⟩

theorem always_append (always : C.Always P s (ops ++ later)) (run : C.exec s ops = some (t, rs)) :
    C.Always P t later := by
  induction ops generalizing s rs with
  | nil =>
      obtain ⟨rfl, -⟩ : s = t ∧ [] = rs := by simpa [exec] using run
      exact always
  | cons o ops ih =>
      obtain ⟨v, r, ps, step, tail, rfl⟩ := exec_eq_some.mp run
      exact ih (always v r step).2 tail

theorem Always.last (always : C.Always P s (o :: ops))
    (run : C.exec s (o :: ops) = some (t, rs)) : ∃ v o' r', P v o' t r' := by
  induction ops generalizing s o rs with
  | nil =>
      obtain ⟨v, r, qs, step, tail, -⟩ := exec_eq_some.mp run
      obtain ⟨rfl, -⟩ : v = t ∧ [] = qs := by simpa [exec] using tail
      exact ⟨s, o, r, (always v r step).1⟩
  | cons o' ops ih =>
      obtain ⟨v, r, qs, step, tail, -⟩ := exec_eq_some.mp run
      exact ih (always v r step).2 tail

theorem serves_cons {r : R} (step : C.step s o = some (t, r)) :
    C.Serves P s (o :: ops) ↔ P s o t r ∧ C.Serves P t ops := by
  constructor
  · rintro ⟨t', r', step', meets, rest⟩
    rw [step] at step'
    cases step'
    exact ⟨meets, rest⟩
  · rintro ⟨meets, rest⟩
    exact ⟨t, r, step, meets, rest⟩

theorem serves_iff_before {I : S → Prop} {V Q : S → O → Prop} (inv : I s)
    (valid : C.Before V s ops)
    (same : ∀ {s o}, I s → V s o → ((∃ t r, C.step s o = some (t, r) ∧ P s o t r) ↔ Q s o))
    (keep : ∀ {s o t r}, I s → V s o → C.step s o = some (t, r) → P s o t r → I t) :
    C.Serves P s ops ↔ C.Before Q s ops := by
  induction ops generalizing s with
  | nil => exact Iff.rfl
  | cons o ops ih =>
      obtain ⟨valid, later⟩ := valid
      constructor
      · rintro ⟨t, r, step, meets, rest⟩
        refine ⟨(same inv valid).mp ⟨t, r, step, meets⟩, fun t' r' step' => ?_⟩
        rw [step] at step'
        cases step'
        exact (ih (keep inv valid step meets) (later t r step)).mp rest
      · rintro ⟨ready, rest⟩
        obtain ⟨t, r, step, meets⟩ := (same inv valid).mpr ready
        exact ⟨t, r, step, meets,
          (ih (keep inv valid step meets) (later t r step)).mpr (rest t r step)⟩

theorem silent_step {start : S} {step : S → O → Option S} {r : Unit} :
    (silent start step).step s o = some (t, r) ↔ step s o = some t := by
  simp only [silent, Option.map_eq_some_iff, Prod.mk.injEq, and_true, exists_eq_right]

theorem silent_step_none {start : S} {step : S → O → Option S} :
    (silent start step).step s o = none ↔ step s o = none :=
  Option.map_eq_none_iff

theorem exists_first_break (broken : ¬ C.Always P s ops) :
    ∃ before o after t rs u r, ops = before ++ o :: after ∧ C.exec s before = some (t, rs) ∧
      C.Always P s before ∧ C.step t o = some (u, r) ∧ ¬ P t o u r := by
  induction ops generalizing s with
  | nil => exact absurd trivial broken
  | cons o ops ih =>
      simp only [Always, not_forall] at broken
      obtain ⟨t, r, step, broken⟩ := broken
      by_cases here : P s o t r
      · have later : ¬ C.Always P t ops := fun always => broken ⟨here, always⟩
        obtain ⟨before, o', after, v, rs, u, r', rfl, run, always, last, breaks⟩ := ih later
        refine ⟨o :: before, o', after, v, r :: rs, u, r', rfl, exec_cons step run, ?_, last,
          breaks⟩
        intro t' r' step'
        rw [step] at step'
        cases step'
        exact ⟨here, always⟩
      · exact ⟨[], o, ops, s, [], t, r, rfl, rfl, trivial, step, here⟩

/-- Every step of `C` is matched by `D` with an answer that looks the same, as long as the steps of
`D` meet `P`. -/
structure Simulation (C : Component S O R) (D : Component T O Q) (P : T → O → T → Q → Prop)
    (Rel : S → T → Prop) (meant : R → V) (seen : Q → V) : Prop where
  step : ∀ {s t o s' r}, Rel s t → C.step s o = some (s', r) →
    ∃ t' q, D.step t o = some (t', q) ∧ (P t o t' q → seen q = meant r ∧ Rel s' t')

theorem Simulation.exec {P : T → O → T → Q → Prop} {Rel : S → T → Prop} {meant : R → V}
    {seen : Q → V} (h : Simulation C D P Rel meant seen) {t : T} (related : Rel s t)
    (always : D.Always P t ops) (run : C.exec s ops = some (u, rs)) :
    ∃ t' qs, D.exec t ops = some (t', qs) ∧ qs.map seen = rs.map meant ∧ Rel u t' := by
  induction ops generalizing s t rs with
  | nil =>
      obtain ⟨rfl, rfl⟩ : s = u ∧ [] = rs := by simpa [Component.exec] using run
      exact ⟨t, [], rfl, rfl, related⟩
  | cons o ops ih =>
      obtain ⟨v, r, ps, first, tail, rfl⟩ := exec_eq_some.mp run
      obtain ⟨t', q, matched, meets⟩ := h.step related first
      obtain ⟨ok, always⟩ := always t' q matched
      obtain ⟨same, related⟩ := meets ok
      obtain ⟨t'', qs, rest, eq, related⟩ := ih related always tail
      refine ⟨t'', q :: qs, exec_cons matched rest, ?_, related⟩
      rw [List.map_cons, List.map_cons, same, eq]

end Component

end OsUnix.Kernel
