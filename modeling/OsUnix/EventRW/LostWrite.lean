import OsUnix.EventRW.Exclusion

/-!
# Lost writes

`++buffer` is a load and a store. While no writer passes a stale `c_write` the stores follow each
other and `buffer` counts them; two writers can reach a run that loses one.
-/

namespace OsUnix.EventRW
open Concurrency Finset

variable {readers writers : Nat} {s t : State readers writers} {i : Thread readers writers}

def AllWritersReturned (s : State readers writers) : Prop :=
  ∀ w : Fin writers, (s.locals (.inr w)).returned = true

def NoLostWrite (s : State readers writers) : Prop :=
  AllWritersReturned s → s.shared.buffer = BitVec.ofNat 16 (iters * writers)

def Local.stores : Local → Nat
  | .writer .print i | .writer .clearWrt i | .writer .testWaiting i | .writer .setRead i
  | .writer .setWrite i => i + 1
  | .writer _ i => i
  | .reader _ => 0

def Local.InLoop : Local → Prop
  | .reader _ => True
  | .writer .guard i => i ≤ iters
  | .writer .returned i => i = iters
  | .writer _ i => i < iters

theorem inLoop (h : (system readers writers).Reachable s) : ∀ i, (s.locals i).InLoop := by
  apply h.each (Q := fun _ l => l.InLoop)
  · intro i
    cases i with
    | inl r => trivial
    | inr w => exact Nat.zero_le _
  · intro i g l g' l' a step loop
    have move := step_iff.mp step
    cases move <;> simp_all [Local.InLoop]
    all_goals omega

theorem stores_of_returned (h : (system readers writers).Reachable s)
    (finished : AllWritersReturned s) : ∑ i, (s.locals i).stores = iters * writers := by
  rw [Fintype.sum_sum_type]
  have readers_none (r : Fin readers) : (s.locals (.inl r)).stores = 0 := by
    have role := isWriter_eq h (.inl r)
    generalize s.locals (.inl r) = l at role
    cases l with
    | reader pc => rfl
    | writer pc k => cases role
  have writers_all (w : Fin writers) : (s.locals (.inr w)).stores = iters := by
    have role := isWriter_eq h (.inr w)
    have loop := inLoop h (.inr w)
    have returned := finished w
    generalize s.locals (.inr w) = l at role loop returned
    cases l with
    | reader pc => cases role
    | writer pc k => cases pc <;> first | exact loop | cases returned
  rw [sum_eq_zero fun r _ => readers_none r, sum_const_nat fun w _ => writers_all w, card_univ,
    Fintype.card_fin, Nat.zero_add, Nat.mul_comm]

def Local.Current (buffer : BitVec 16) : Local → Prop
  | .writer (.store tmp) _ => tmp = buffer
  | _ => True

structure Counts (s : State readers writers) : Prop where
  current : ∀ i, (s.locals i).Current s.shared.buffer
  buffer : s.shared.buffer = BitVec.ofNat 16 (∑ i, (s.locals i).stores)

theorem marked_of_not_current {l : Local} {buffer buffer' : BitVec 16} (current : l.Current buffer)
    (outdated : ¬ l.Current buffer') : l.marked = true := by
  cases l with
  | reader pc => exact absurd trivial outdated
  | writer pc k => cases pc <;> simp_all [Local.Current, Local.marked]

theorem counts (h : (system readers writers).ReachableIf WriterGranted s) : Counts s := by
  refine h.invariant (I := Counts) ⟨fun i => ?_, ?_⟩ ?_
  · cases i <;> trivial
  · rw [show ∑ i, ((system readers writers).init.locals i).stores = 0 from ?_]
    · rfl
    · refine sum_eq_zero fun i _ => ?_
      cases i <;> rfl
  · intro s m t reach ⟨current, buffer⟩ _ next
    have alone := count_le_one_iff.mp ((writersAlone reach).marked.le.trans (Bool.toNat_le _))
    obtain ⟨g, l, a, move, rfl⟩ := next_cases next
    have mine := current m
    have total := sum_update Local.stores s.locals m l
    have marks := alone m
    have keep (same : g.buffer = s.shared.buffer) (own : l.Current g.buffer) :
        ∀ i, (Function.update s.locals m l i).Current g.buffer := by
      rw [Function.forall_update_iff s.locals fun _ l => l.Current g.buffer]
      exact ⟨own, fun i _ => same ▸ current i⟩
    generalize before : s.locals m = l₀ at move mine total marks
    cases move with
    | @store k tmp =>
        obtain rfl : tmp = s.shared.buffer := mine
        refine ⟨fun i => ?_, ?_⟩
        · by_cases self : i = m
          · subst self
            rw [Config.move_locals, Function.update_self]
            trivial
          · -- another writer with a loaded value would be in the section too
            rw [Config.move_locals, Function.update_of_ne self]
            by_contra outdated
            exact self (marks i rfl (marked_of_not_current (current i) outdated)).symm
        · have sum : ∑ i, (Function.update s.locals m (.writer .print k) i).stores =
              ∑ i, (s.locals i).stores + 1 := by
            apply Nat.add_right_cancel (m := k)
            rw [Nat.add_right_comm]
            exact total
          simp only [Config.move_shared, Config.move_locals]
          rw [sum, buffer, BitVec.ofNat_add]
          rfl
    | load =>
        refine ⟨keep rfl rfl, ?_⟩
        simp only [Config.move_shared, Config.move_locals]
        rw [Nat.add_right_cancel total, buffer]
    | _ =>
        refine ⟨keep rfl trivial, ?_⟩
        simp only [Config.move_shared, Config.move_locals]
        rw [Nat.add_right_cancel total, buffer]

theorem noLostWrite_of_granted (h : (system readers writers).ReachableIf WriterGranted s) :
    NoLostWrite s := by
  intro finished
  rw [(counts h).buffer, stores_of_returned h.reachable finished]

structure Shared.Calm (g : Shared (Thread readers writers)) : Prop where
  free : g.rwMutex = .free
  nr : ¬ 0 < g.nr
  wrt : g.wrt = false
  waitingReaders : ¬ 0 < g.waitingReaders

theorem solo_pass {k : Nat} (calm : s.shared.Calm) (at_i : s.locals i = .writer .guard k)
    (more : k < iters) : (system readers writers).SoloTo i s
      { s.shared with
        buffer := s.shared.buffer + 1
        wrt := false
        cWrite := s.shared.cWrite.set } (.writer .guard (k + 1)) := by
  have run := solo_startWrite at_i more calm.free (Or.inl ⟨calm.nr, calm.wrt⟩)
  exact solo_signal (solo_publish (solo_move run .load)) calm.waitingReaders

theorem solo_passes {k n : Nat} (calm : s.shared.Calm) (at_i : s.locals i = .writer .guard k)
    (rest : k + n = iters) : ∃ t, (system readers writers).SoloRun i s t ∧ t.shared.Calm ∧
      t.shared.buffer = s.shared.buffer + BitVec.ofNat 16 n ∧ (t.locals i).returned = true ∧
      ∀ j, j ≠ i → t.locals j = s.locals j := by
  induction n generalizing s k with
  | zero =>
      obtain ⟨t, run, shared, here, others⟩ :=
        solo_move (solo_start at_i) (.writerReturn (by omega))
      exact ⟨t, run, shared ▸ calm, by simp [shared], by rw [here]; rfl, others⟩
  | succ n ih =>
      obtain ⟨u, pass, shared, here, others⟩ := solo_pass calm at_i (by omega)
      obtain ⟨t, run, calm', buffer, returned, others'⟩ :=
        ih (s := u) (shared ▸ ⟨calm.free, calm.nr, rfl, calm.waitingReaders⟩) here (by omega)
      refine ⟨t, pass.trans run, calm', ?_, returned, fun j other => ?_⟩
      · rw [buffer, shared, Nat.add_comm n 1, BitVec.ofNat_add, ← BitVec.add_assoc]
        rfl
      · rw [others' j other, others j other]

theorem run_passes {passes : Fin writers → Nat} (calm : s.shared.Calm)
    (bound : ∀ w, passes w ≤ iters) (at_guard : ∀ w, s.locals (.inr w) = .writer .guard (passes w))
    (ws : Finset (Fin writers)) : ∃ t, (system readers writers).Run s t ∧ t.shared.Calm ∧
      t.shared.buffer = s.shared.buffer + BitVec.ofNat 16 (∑ w ∈ ws, (iters - passes w)) ∧
      (∀ w ∈ ws, (t.locals (.inr w)).returned = true) ∧
      ∀ w ∉ ws, t.locals (.inr w) = s.locals (.inr w) := by
  induction ws using Finset.induction_on with
  | empty => exact ⟨s, .refl, calm, by simp, by simp, fun _ _ => rfl⟩
  | insert w ws fresh ih =>
      obtain ⟨u, run, calm', buffer, returned, others⟩ := ih
      have at_w : u.locals (.inr w) = .writer .guard (passes w) :=
        (others w fresh).trans (at_guard w)
      obtain ⟨t, run', calm'', buffer', returned', others'⟩ :=
        solo_passes calm' at_w (Nat.add_sub_cancel' (bound w))
      have still (v : Fin writers) (other : v ≠ w) : t.locals (.inr v) = u.locals (.inr v) :=
        others' _ (by simpa using other)
      refine ⟨t, run.trans run'.run, calm'', ?_, fun v member => ?_, fun v outside => ?_⟩
      · rw [buffer', buffer, sum_insert fresh, Nat.add_comm (iters - passes w), BitVec.ofNat_add,
          BitVec.add_assoc]
      · by_cases eq : v = w
        · rw [eq]
          exact returned'
        · rw [still v eq]
          exact returned v ((mem_insert.mp member).resolve_left eq)
      · rw [mem_insert, not_or] at outside
        rw [still v outside.1, others v outside.2]

theorem exists_overwritten (v w : Fin writers) (distinct : w ≠ v) :
    ∃ s, (system readers writers).Reachable s ∧ s.shared = .quiet 2 false true ∧
      s.locals (.inr v) = .writer .guard 2 ∧ s.locals (.inr w) = .writer .guard 1 ∧
      ∀ u, u ≠ v → u ≠ w → s.locals (.inr u) = .writer .guard 0 := by
  have ne : (.inr w : Thread readers writers) ≠ .inr v := by simpa using distinct
  -- `v` clears `wrt` and is slow to signal; `w` enters
  have enter := quiet_startWrite (s := (system readers writers).init) (i := .inr v) (k := 0)
    quiet_init rfl (by decide) (Or.inl rfl)
  obtain ⟨a, cleared, shared_a, v_a, others_a⟩ := quiet_publish (solo_move enter .load)
  obtain ⟨b, entered, shared_b, w_b, others_b⟩ :=
    quiet_startWrite shared_a (others_a _ ne) (by decide) (Or.inl rfl)
  have v_b := (others_b _ ne.symm).trans v_a
  -- the late signal lets `v` in again; both load the same value
  obtain ⟨c, signalled, shared_c, v_c, others_c⟩ := quiet_signal (shared_b ▸ solo_start v_b)
  obtain ⟨d, loaded, shared_d, v_d, others_d⟩ :=
    solo_move (quiet_startWrite shared_c v_c (by decide) (Or.inr rfl)) .load
  have w_d := ((others_d _ ne).trans (others_c _ ne)).trans w_b
  obtain ⟨e, first, shared_e, w_e, others_e⟩ :=
    quiet_signal (quiet_publish (solo_move (shared_d ▸ solo_start w_d) .load))
  have v_e := (others_e _ ne.symm).trans v_d
  obtain ⟨x, second, shared_x, v_x, others_x⟩ :=
    quiet_signal (quiet_publish (shared_e ▸ solo_start v_e))
  refine ⟨x, ((((cleared.run.trans entered.run).trans signalled.run).trans loaded.run).trans
    first.run).trans second.run, shared_x, v_x, (others_x _ ne).trans w_e,
    fun u not_v not_w => ?_⟩
  have other_v : (.inr u : Thread readers writers) ≠ .inr v := by simpa using not_v
  have other_w : (.inr u : Thread readers writers) ≠ .inr w := by simpa using not_w
  rw [others_x _ other_v, others_e _ other_w, others_d _ other_v, others_c _ other_v,
    others_b _ other_w, others_a _ other_v]
  rfl

theorem exists_lost_write (v w : Fin writers) (distinct : w ≠ v) :
    ∃ s, (system readers writers).Reachable s ∧ AllWritersReturned s ∧
      s.shared.buffer + 1 = BitVec.ofNat 16 (iters * writers) := by
  obtain ⟨s, reach, shared, at_v, at_w, others⟩ :=
    @exists_overwritten readers writers v w distinct
  have calm : s.shared.Calm := shared ▸ ⟨rfl, lt_irrefl 0, rfl, lt_irrefl 0⟩
  let passes (u : Fin writers) : Nat := (if u = v then 2 else 0) + if u = w then 1 else 0
  have at_guard (u : Fin writers) : s.locals (.inr u) = .writer .guard (passes u) := by
    by_cases is_v : u = v
    · subst is_v
      simp [passes, at_v, distinct.symm]
    · by_cases is_w : u = w
      · subst is_w
        simp [passes, at_w, distinct]
      · simp [passes, others u is_v is_w, is_v, is_w]
  have bound (u : Fin writers) : passes u ≤ iters := by
    simp only [passes, iters]
    split <;> split <;> omega
  obtain ⟨t, run, -, buffer', returned, -⟩ := run_passes calm bound at_guard univ
  have done : ∑ u, passes u = 3 := by
    simp [passes, sum_add_distrib]
  have total : ∑ u, (iters - passes u) + 3 = iters * writers := by
    rw [← done, ← sum_add_distrib, sum_const_nat fun u _ => Nat.sub_add_cancel (bound u), card_univ,
      Fintype.card_fin, Nat.mul_comm]
  refine ⟨t, reach.trans run, fun u => returned u (mem_univ u), ?_⟩
  rw [buffer', shared, ← total, Nat.add_comm, BitVec.ofNat_add, BitVec.add_comm, ← BitVec.add_assoc]
  rfl

theorem writerGranted_of_le_one (few : writers ≤ 1) (h : (system readers writers).Reachable s)
    (i : Thread readers writers) : WriterGranted s i := by
  intro k at_wait
  rw [← Bool.not_eq_true]
  intro busy
  obtain ⟨j, other, writing⟩ :=
    other_writing h busy (i := i) (by rw [at_wait]; rfl) (by rw [at_wait]; rfl)
  have role_j := (isWriter_eq h j).symm.trans (isWriter_of_writing writing)
  have role_i := isWriter_eq h i
  rw [at_wait] at role_i
  cases i with
  | inl r => cases role_i
  | inr v =>
      cases j with
      | inl r => cases role_j
      | inr w =>
          refine other (congrArg Sum.inr (Fin.ext ?_))
          omega

theorem noLostWrite_iff :
    (∀ s, (system readers writers).Reachable s → NoLostWrite s) ↔ writers ≤ 1 := by
  constructor
  · intro exact_count
    by_contra many
    obtain ⟨s, reach, finished, lost⟩ := @exists_lost_write readers writers
      (⟨0, by omega⟩ : Fin writers) ⟨1, by omega⟩ (by simp)
    rw [← exact_count s reach finished] at lost
    simp at lost
  · intro few s h
    exact noLostWrite_of_granted
      (h.reachableIf fun u i reach => writerGranted_of_le_one few reach i)

/-- No run in which every writer finds `wrt` clear after its wait loses a write, and with two
writers or more there is a run that loses one. -/
theorem noLostWrite (readers writers : Nat) :
    (∀ s, (system readers writers).ReachableIf WriterGranted s → NoLostWrite s) ∧
    ((∀ s, (system readers writers).Reachable s → NoLostWrite s) ↔ writers ≤ 1) :=
  ⟨fun _ h => noLostWrite_of_granted h, noLostWrite_iff⟩

theorem noLostWrite_fails : ∃ s : State 5 4, (system 5 4).Reachable s ∧ AllWritersReturned s ∧
    s.shared.buffer = 39 ∧ ¬ NoLostWrite s := by
  obtain ⟨s, reach, finished, lost⟩ := @exists_lost_write 5 4 0 1 (by decide)
  have buffer : s.shared.buffer = 39 := by
    have shifted := congrArg (· - 1) lost
    simpa [iters, BitVec.add_sub_cancel] using shifted
  refine ⟨s, reach, finished, buffer, fun exact_count => ?_⟩
  rw [← exact_count finished] at lost
  simp at lost

end OsUnix.EventRW
