import OsUnix.Concurrency.Fairness
import OsUnix.SemaphoreRW.Invariant
import Mathlib.Data.Fintype.Sum

/-!
# Who starves in the semaphore program

Readers that hand the section over to each other keep `ar` above zero, and the writers then wait
for ever, however fair the system is. One reader alone has to leave, and nobody starves.
-/

namespace OsUnix.SemaphoreRW
open Concurrency Filter

variable {readers writers : Nat} {s : State readers writers} {i : Fin readers ⊕ Fin writers}
  {n : Nat}

abbrev Endless (readers writers : Nat) :=
  (system readers writers).Endless (system readers writers).init

variable {p : Endless readers writers}

theorem roles (h : (system readers writers).Reachable s) :
    (∀ r, ∃ pc, s.locals (.inl r) = .reader pc) ∧ ∀ w, ∃ pc, s.locals (.inr w) = .writer pc := by
  let Q : Fin readers ⊕ Fin writers → Local → Prop := fun i l =>
    i.elim (fun _ => ∃ pc, l = .reader pc) fun _ => ∃ pc, l = .writer pc
  have each := h.each (Q := Q) (fun i => by cases i <;> exact ⟨_, rfl⟩)
    fun {i g l g' l' a} step own => by
      have move := step_iff.mp step
      cases i <;> obtain ⟨pc, rfl⟩ := own <;> cases move <;> exact ⟨_, rfl⟩
  exact ⟨fun r => each (.inl r), fun w => each (.inr w)⟩

def Local.inside (l : Local) : Bool := l.reading || l.writing

def Local.left : Local → Nat
  | .writer .load => 4
  | .writer (.store _) => 3
  | .reader .print | .writer .print => 2
  | .reader .stop | .writer .stop => 1
  | _ => 0

theorem left_falls {g g' : Shared} {l l' : Local} {a : Action} (move : Move g l g' l' a)
    (inside : l.inside = true) : l'.left < l.left := by
  cases move with
  | callStartRead | startRead | callStartWrite | startWrite => cases inside
  | _ => simp [Local.left]

theorem free_inside (h : (system readers writers).Reachable s)
    (inside : (s.locals i).inside = true) : (system readers writers).Enabled s i := by
  refine enabled_of_not_waiting h ?_ ?_ <;>
    · intro wait
      rw [wait] at inside
      cases inside

theorem none_again (fair : p.Fair) (Q : Local → Bool) (sub : ∀ l, Q l = true → l.inside = true)
    (single : ∀ n i j, Q ((p.state n).locals i) = true → Q ((p.state n).locals j) = true → i = j) :
    ∃ᶠ n in atTop, ∀ i, Q ((p.state n).locals i) = false := by
  refine frequently_atTop.mpr fun n => ?_
  by_cases none : ∀ i, Q ((p.state n).locals i) = false
  · exact ⟨n, le_rfl, none⟩
  · simp only [not_forall, Bool.not_eq_false] at none
    obtain ⟨i, at_i⟩ := none
    obtain ⟨m, later, at_m, mover, out⟩ := fair.leaves (P := fun l => Q l = true) Local.left
      (fun l inside => Frequently.of_forall fun m at_m =>
        free_inside (p.reachable m) (at_m ▸ sub l inside))
      (fun step inside => left_falls (step_iff.mp step) (sub _ inside)) at_i
    refine ⟨m + 1, Nat.le_succ_of_le later, fun j => Bool.eq_false_iff.mpr ?_⟩
    by_cases same : j = i
    · exact same ▸ out
    · rw [System.Endless.stays (mover ▸ Ne.symm same)]
      exact fun at_j => same (single m j i at_j at_m)

def Local.ahead : Local → Nat
  | .reader .print | .writer .load => 0
  | .reader .wait | .writer .wait => 1
  | .reader .call | .writer .call => 2
  | .reader .stop | .writer .stop => 3
  | .writer .print => 4
  | .writer (.store _) => 5

theorem ahead_falls {g g' : Shared} {l l' : Local} {a : Action} (move : Move g l g' l' a)
    (ahead : 0 < l.ahead) : l'.ahead < l.ahead := by
  cases move with
  | printRead | load => cases ahead
  | _ => simp [Local.ahead]

theorem comes_in (fair : p.Fair) (often : ∃ᶠ n in atTop,
      (p.state n).locals i = .reader .wait ∨ (p.state n).locals i = .writer .wait →
        (system readers writers).Enabled (p.state n) i) :
    ∃ᶠ n in atTop, ((p.state n).locals i).ahead = 0 := by
  refine frequently_atTop.mpr fun n => ?_
  rcases Nat.eq_zero_or_pos ((p.state n).locals i).ahead with here | ahead
  · exact ⟨n, le_rfl, here⟩
  · obtain ⟨m, later, -, -, arrived⟩ := fair.leaves (P := fun l => 0 < l.ahead) Local.ahead
      (fun l _ => often.mono fun m waits at_m => by
        by_cases waiting : l = .reader .wait ∨ l = .writer .wait
        · exact waits (at_m ▸ waiting)
        · rw [not_or, ← at_m] at waiting
          exact enabled_of_not_waiting (p.reachable m) waiting.1 waiting.2)
      (fun step ahead => ahead_falls (step_iff.mp step) ahead) ahead
    exact ⟨m + 1, Nat.le_succ_of_le later, Nat.eq_zero_of_not_pos arrived⟩

theorem readers_come_in (fair : p.Fair) (r : Fin readers) :
    ∃ᶠ n in atTop, (p.state n).locals (.inl r) = .reader .print := by
  have free := none_again fair Local.writing (fun l writing => by simp [Local.inside, writing])
    fun n i j at_i at_j => (exclusive (p.reachable n)).1 at_i at_j
  refine (comes_in (i := .inl r) fair (free.mono fun n none waits => ?_)).mono fun n arrived => ?_
  · obtain ⟨pc, at_r⟩ := (roles (p.reachable n)).1 r
    have at_r : (p.state n).locals (.inl r) = .reader .wait := waits.resolve_right (by simp [at_r])
    have no_writer := (sems_aw (p.reachable n)).trans (count_eq_zero_iff.mpr none)
    exact Move.enabled (by
      rw [at_r]
      exact .startRead (sems_waiting (p.reachable n)).1 no_writer)
  · obtain ⟨pc, at_r⟩ := (roles (p.reachable n)).1 r
    rw [at_r] at arrived ⊢
    cases pc <;> first | rfl | cases arrived

theorem is_reader (h : (system readers writers).Reachable s)
    (reading : (s.locals i).reading = true) : ∃ r, i = .inl r := by
  cases i with
  | inl r => exact ⟨r, rfl⟩
  | inr w =>
      obtain ⟨pc, at_w⟩ := (roles h).2 w
      rw [at_w] at reading
      cases reading

theorem alone_inside (h : (system readers writers).Reachable s) (few : readers ≤ 1)
    {i j : Fin readers ⊕ Fin writers} (at_i : (s.locals i).inside = true)
    (at_j : (s.locals j).inside = true) : i = j := by
  have ⟨single, no_reader⟩ := exclusive h
  have apart {i j : Fin readers ⊕ Fin writers} (writing : (s.locals i).writing = true)
      (reading : (s.locals j).reading = true) : False :=
    Set.notMem_empty j (no_reader ⟨i, writing⟩ ▸ reading)
  rcases Bool.or_eq_true_iff.mp at_i with reading | writing <;>
    rcases Bool.or_eq_true_iff.mp at_j with reading' | writing'
  · obtain ⟨r, rfl⟩ := is_reader h reading
    obtain ⟨r', rfl⟩ := is_reader h reading'
    exact congrArg _ (Fin.ext (by omega))
  · exact (apart writing' reading).elim
  · exact (apart writing reading').elim
  · exact single writing writing'

theorem writers_come_in (fair : p.Fair) (few : readers ≤ 1) (w : Fin writers) :
    ∃ᶠ n in atTop, (p.state n).locals (.inr w) = .writer .load := by
  have free := none_again fair Local.inside (fun l inside => inside)
    fun n i j at_i at_j => alone_inside (p.reachable n) few at_i at_j
  refine (comes_in (i := .inr w) fair (free.mono fun n none waits => ?_)).mono fun n arrived => ?_
  · obtain ⟨pc, at_w⟩ := (roles (p.reachable n)).2 w
    have at_w : (p.state n).locals (.inr w) = .writer .wait := waits.resolve_left (by simp [at_w])
    have out (i : Fin readers ⊕ Fin writers) := Bool.or_eq_false_iff.mp (none i)
    have no_writer := (sems_aw (p.reachable n)).trans (count_eq_zero_iff.mpr fun i => (out i).2)
    have no_reader := (sems_ar (p.reachable n)).trans (count_eq_zero_iff.mpr fun i => (out i).1)
    exact Move.enabled (by
      rw [at_w]
      exact .startWrite no_writer no_reader)
  · obtain ⟨pc, at_w⟩ := (roles (p.reachable n)).2 w
    rw [at_w] at arrived ⊢
    cases pc <;> first | rfl | cases arrived

theorem exists_fair_run (some_process : 0 < readers + writers) :
    ∃ p : Endless readers writers, p.Fair := by
  have ⟨i⟩ : Nonempty (Fin readers ⊕ Fin writers) :=
    Fintype.card_pos_iff.mp (by simpa using some_process)
  exact System.Endless.exists_fair (I := (system readers writers).Reachable) .refl
    (fun reach next => System.Run.tail reach next) fun _ reach => exists_enabled reach i

def onlyReaders (n : Nat) : Sem → Nat := Function.update (fun _ => 0) .ar n

@[simp] theorem raise_onlyReaders : raise (onlyReaders n) .ar = onlyReaders (n + 1) := by
  simp [raise, onlyReaders]

@[simp] theorem lower_onlyReaders : lower (onlyReaders (n + 1)) .ar = onlyReaders n := by
  simp [lower, onlyReaders]

structure Standing (locals : Fin readers ⊕ Fin writers → Local) (n : Nat)
    (s : State readers writers) : Prop where
  locals : s.locals = locals
  sems : s.shared.sems = onlyReaders n

variable {locals : Fin readers ⊕ Fin writers → Local}

theorem Standing.step {g : Shared} {l l' : Local} {a : Action} {m : Nat}
    (at_s : Standing locals n s) (at_i : locals i = l) (move : Move s.shared l g l' a)
    (sems : g.sems = onlyReaders m) :
    ∃ t, (system readers writers).next s i = some t ∧
      Standing (Function.update locals i l') m t := by
  obtain ⟨rfl, -⟩ := at_s
  subst at_i
  exact ⟨_, System.next_eq_some.mpr ⟨_, _, _, step_iff.mpr move, rfl⟩, rfl, sems⟩

theorem writers_wait (W : Finset (Fin writers)) : ∃ s : State readers writers,
    (system readers writers).Reachable s ∧
      Standing (Sum.elim (fun _ => .reader .call)
        fun w => if w ∈ W then .writer .wait else .writer .call) 0 s := by
  induction W using Finset.induction_on with
  | empty =>
      refine ⟨_, .refl, ?_, ?_⟩
      · simp [system]
      · simp [onlyReaders, system]
  | insert w W out ih =>
      obtain ⟨s, reach, at_s⟩ := ih
      obtain ⟨t, next, at_t⟩ := at_s.step (i := .inr w) (by simp [out]) .callStartWrite at_s.sems
      refine ⟨t, System.Run.tail reach next, ?_⟩
      convert at_t using 1
      rw [Sum.update_elim_inr]
      congr 1
      funext v
      by_cases same : v = w <;> simp [same]

section

variable (many : 2 ≤ readers)

def turn (q : Nat) : Fin readers := ⟨q % readers, Nat.mod_lt _ (by omega)⟩

theorem turn_ne (q : Nat) : turn many q ≠ turn many (q + 1) := by
  intro same
  have zero : (q + 1 - q) % readers = 0 := Nat.sub_mod_eq_zero_of_mod_eq (Fin.mk.inj same).symm
  rw [Nat.add_sub_cancel_left, Nat.mod_eq_of_lt many] at zero
  cases zero

def held (q : Nat) : Fin readers → ReaderPc := Function.update (fun _ => .call) (turn many q) .print

def called (q : Nat) : Fin readers → ReaderPc :=
  Function.update (held many q) (turn many (q + 1)) .wait

def both (q : Nat) : Fin readers → ReaderPc :=
  Function.update (called many q) (turn many (q + 1)) .print

def printed (q : Nat) : Fin readers → ReaderPc :=
  Function.update (both many q) (turn many q) .stop

theorem held_next (q : Nat) :
    Function.update (printed many q) (turn many q) .call = held many (q + 1) := by
  have ne := turn_ne many q
  funext r
  by_cases first : r = turn many q
  · subst first
    rw [Function.update_self, held, Function.update_of_ne ne]
  · by_cases second : r = turn many (q + 1)
    · subst second
      simp [printed, both, held, first]
    · simp [printed, both, called, held, first, second]

def Stand (f : Fin readers → ReaderPc) (n : Nat) (s : State readers writers) : Prop :=
  Standing (Sum.elim (Local.reader ∘ f) fun _ => .writer .wait) n s

theorem Stand.step {f : Fin readers → ReaderPc} {r : Fin readers} {pc pc' : ReaderPc} {g : Shared}
    {a : Action} {m : Nat} (at_s : Stand f n s) (at_r : f r = pc)
    (move : Move s.shared (.reader pc) g (.reader pc') a) (sems : g.sems = onlyReaders m) :
    ∃ t, (system readers writers).next s (.inl r) = some t ∧
      Stand (Function.update f r pc') m t := by
  obtain ⟨t, next, at_t⟩ := Standing.step (i := .inl r) at_s (congrArg Local.reader at_r) move sems
  refine ⟨t, next, ?_⟩
  rwa [Stand, Function.comp_update, ← Sum.update_elim_inl]

inductive Handing (s : State readers writers) : Nat → Prop
  | held (q : Nat) (at_s : Stand (held many q) 1 s) : Handing s (4 * q)
  | called (q : Nat) (at_s : Stand (called many q) 1 s) : Handing s (4 * q + 1)
  | both (q : Nat) (at_s : Stand (both many q) 2 s) : Handing s (4 * q + 2)
  | printed (q : Nat) (at_s : Stand (printed many q) 2 s) : Handing s (4 * q + 3)

def schedule (n : Nat) : Fin readers ⊕ Fin writers :=
  .inl (turn many (if n % 4 < 2 then n / 4 + 1 else n / 4))

theorem schedule_eq (q : Nat) {k : Nat} (lt : k < 4) : (schedule many (4 * q + k) :
    Fin readers ⊕ Fin writers) = .inl (turn many (if k < 2 then q + 1 else q)) := by
  have here : (4 * q + k) / 4 = q := by omega
  have rest : (4 * q + k) % 4 = k := by omega
  rw [schedule, here, rest]

theorem Handing.step (handing : Handing many s n) :
    ∃ t, (system readers writers).next s (schedule many n) = some t ∧
      Handing many t (n + 1) := by
  cases handing with
  | held q at_s =>
      obtain ⟨t, next, at_t⟩ := at_s.step (r := turn many (q + 1))
        (by simp [SemaphoreRW.held, (turn_ne many q).symm]) .callStartRead at_s.sems
      exact ⟨t, by rw [← Nat.add_zero (4 * q), schedule_eq many q (by decide)]; exact next,
        .called q at_t⟩
  | called q at_s =>
      obtain ⟨t, next, at_t⟩ := at_s.step (r := turn many (q + 1)) (by simp [SemaphoreRW.called])
        (.startRead (by rw [at_s.sems]; rfl) (by rw [at_s.sems]; rfl))
        (by rw [at_s.sems]; exact raise_onlyReaders)
      exact ⟨t, by rw [schedule_eq many q (by decide)]; exact next, .both q at_t⟩
  | both q at_s =>
      obtain ⟨t, next, at_t⟩ := at_s.step (r := turn many q)
        (by simp [SemaphoreRW.both, SemaphoreRW.called, SemaphoreRW.held, turn_ne many q])
        .printRead at_s.sems
      exact ⟨t, by rw [schedule_eq many q (by decide)]; exact next, .printed q at_t⟩
  | printed q at_s =>
      obtain ⟨t, next, at_t⟩ := at_s.step (r := turn many q) (by simp [SemaphoreRW.printed])
        (.stopRead (by rw [at_s.sems]; decide)) (by rw [at_s.sems]; exact lower_onlyReaders)
      rw [held_next] at at_t
      exact ⟨t, by rw [schedule_eq many q (by decide)]; exact next, .held (q + 1) at_t⟩

theorem exists_handing : ∃ s : State readers writers, (system readers writers).Reachable s ∧
    Handing many s 0 := by
  obtain ⟨s, reach, at_s⟩ := @writers_wait readers writers Finset.univ
  simp only [Finset.mem_univ, if_true] at at_s
  obtain ⟨t, first, at_t⟩ := Stand.step (f := fun _ => .call) (r := turn many 0) at_s rfl
    .callStartRead at_s.sems
  obtain ⟨u, second, at_u⟩ := at_t.step (r := turn many 0) (Function.update_self ..)
    (.startRead (by rw [at_t.sems]; rfl) (by rw [at_t.sems]; rfl))
    (by rw [at_t.sems]; exact raise_onlyReaders)
  rw [Function.update_idem] at at_u
  exact ⟨u, (System.Run.tail reach first).tail second, .held 0 at_u⟩

theorem Handing.writers_out (handing : Handing many s n) (w : Fin writers) :
    s.locals (.inr w) = .writer .wait ∧ ¬ (system readers writers).Enabled s (.inr w) := by
  obtain ⟨f, k, at_s⟩ : ∃ f k, Stand f (k + 1) s := by
    cases handing <;> exact ⟨_, _, ‹_›⟩
  have at_w : s.locals (.inr w) = .writer .wait := by
    rw [at_s.locals]
    rfl
  refine ⟨at_w, fun enabled => ?_⟩
  obtain ⟨⟨g, l, a⟩, step⟩ := Option.isSome_iff_exists.mp (System.enabled_iff.mp enabled)
  have move := step_iff.mp step
  rw [at_w] at move
  cases move with
  | startWrite _ no_reader =>
      rw [at_s.sems] at no_reader
      cases no_reader

end

theorem exists_starving (many : 2 ≤ readers) : ∃ p : Endless readers writers, p.Fair ∧
    ∀ᶠ n in atTop, ∀ w, (p.state n).locals (.inr w) = .writer .wait := by
  obtain ⟨s, reach, handing⟩ := @exists_handing readers writers many
  obtain ⟨p, at_time, start, turns⟩ := System.Endless.exists_endless
    (M := system readers writers) (x := (s, 0)) Prod.fst
    (fun x i y => i = schedule many x.2 ∧ y.2 = x.2 + 1 ∧
      (system readers writers).next x.1 i = some y.1)
    (I := fun x => Handing many x.1 x.2) handing
    (fun x handing => by
      obtain ⟨t, next, later⟩ := handing.step
      exact ⟨_, (t, x.2 + 1), ⟨rfl, rfl, next⟩, later⟩) fun turn => turn.2.2
  have time (n : Nat) : (at_time n).2 = n := by
    induction n with
    | zero => rw [start]
    | succ n ih => rw [(turns n).2.2.2.1, ih]
  have handing (n : Nat) : Handing many (p.state n) n := by
    have := (turns n).1
    rwa [(turns n).2.1, time] at this
  have fair : p.Fair := by
    rintro (r | w) often
    · refine frequently_atTop.mpr fun n => ⟨4 * (readers * n + r) + 2, ?_, ?_⟩
      · have : n ≤ readers * n := Nat.le_mul_of_pos_left n (by omega)
        omega
      · rw [(turns _).2.2.1, time, schedule_eq many _ (by decide)]
        refine congrArg _ (Fin.ext ?_)
        simp [turn, Nat.mod_eq_of_lt r.isLt]
    · obtain ⟨n, enabled⟩ := often.exists
      exact absurd enabled ((handing n).writers_out many w).2
  obtain ⟨q, k, same⟩ := System.Endless.exists_from reach p
  refine ⟨q, fair.of_later same, ?_⟩
  refine eventually_atTop.mpr ⟨k, fun n later w => ?_⟩
  obtain ⟨m, rfl⟩ := Nat.exists_eq_add_of_le' later
  rw [(same m).1]
  exact ((handing m).writers_out many w).1

/-- In a fair run each reader comes in again and again, and so does each writer beside at most one
reader. With more readers there is a fair run in which all the writers wait for ever. -/
theorem who_starves (readers writers : Nat) :
    (0 < readers + writers → ∃ p : Endless readers writers, p.Fair) ∧
    (∀ p : Endless readers writers, p.Fair →
      (∀ r, ∃ᶠ n in atTop, (p.state n).locals (.inl r) = .reader .print) ∧
      (readers ≤ 1 → ∀ w, ∃ᶠ n in atTop, (p.state n).locals (.inr w) = .writer .load)) ∧
    (2 ≤ readers → ∃ p : Endless readers writers, p.Fair ∧
      ∀ᶠ n in atTop, ∀ w, (p.state n).locals (.inr w) = .writer .wait) :=
  ⟨exists_fair_run, fun _ fair => ⟨readers_come_in fair, fun few => writers_come_in fair few⟩,
    exists_starving⟩

end OsUnix.SemaphoreRW
