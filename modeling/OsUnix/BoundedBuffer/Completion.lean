import OsUnix.BoundedBuffer.Invariant
import Mathlib.Data.Fintype.BigOperators

/-!
# Completion

Every run ends. Where it ends depends only on how many items are produced, how many are wanted and
how many slots there are.
-/

namespace OsUnix.BoundedBuffer
open Concurrency Finset

variable {c : Setup} {s t : State c} {k : c.Process}

def Setup.produced (c : Setup) : Nat := ∑ k, c.producerCount k

def Setup.wanted (c : Setup) : Nat := ∑ k, c.consumerCount k

/-! ## Every run ends -/

def Local.rank : Local → Nat
  | .producer pc i count _ =>
      match pc with
      | .top => 10 * (count - i) + 1
      | .start => 10 * (count - (i + 1)) + 10
      | .index => 10 * (count - (i + 1)) + 9
      | .item _ => 10 * (count - (i + 1)) + 8
      | .printPos => 10 * (count - (i + 1)) + 7
      | .printIndex => 10 * (count - (i + 1)) + 6
      | .printItem _ => 10 * (count - (i + 1)) + 5
      | .incLoad => 10 * (count - (i + 1)) + 4
      | .incStore _ => 10 * (count - (i + 1)) + 3
      | .stop => 10 * (count - (i + 1)) + 2
      | .exited => 0
  | .consumer pc i count =>
      match pc with
      | .top => 8 * (count - i) + 1
      | .start => 8 * (count - (i + 1)) + 8
      | .printPos => 8 * (count - (i + 1)) + 7
      | .printIndex => 8 * (count - (i + 1)) + 6
      | .printItem _ => 8 * (count - (i + 1)) + 5
      | .incLoad => 8 * (count - (i + 1)) + 4
      | .incStore _ => 8 * (count - (i + 1)) + 3
      | .stop => 8 * (count - (i + 1)) + 2
      | .exited => 0

theorem Move.rank_lt {g g' : Shared} {l l' : Local} {a : Action} (move : Move g l g' l' a) :
    l'.rank < l.rank := by
  cases move <;> simp only [Local.rank] <;> omega

theorem rank_falls (h : c.system.next s k = some t) :
    ∑ j, (t.locals j).rank < ∑ j, (s.locals j).rank := by
  obtain ⟨g, l, a, move, rfl⟩ := next_cases h
  have total := sum_update Local.rank s.locals k l
  have own := move.rank_lt
  simp only [Config.move_locals]
  omega

/-! ## The loops -/

def Local.limit : Local → Nat
  | .producer _ _ count _ | .consumer _ _ count => count

def Local.InLoop : Local → Prop
  | .producer .top i count _ | .consumer .top i count => i ≤ count
  | .producer .exited i count _ | .consumer .exited i count => i = count
  | .producer _ i count _ | .consumer _ i count => i < count

theorem Move.inLoop {g g' : Shared} {l l' : Local} {a : Action} (move : Move g l g' l' a)
    (inLoop : l.InLoop) : l'.InLoop ∧ l'.limit = l.limit := by
  cases move <;> simp [Local.InLoop, Local.limit] at inLoop ⊢ <;> omega

theorem inLoop (h : c.system.Reachable s) (k : c.Process) :
    (s.locals k).InLoop ∧ (s.locals k).limit = Sum.elim c.producerCount c.consumerCount k := by
  apply h.each (Q := fun k l => l.InLoop ∧ l.limit = Sum.elim c.producerCount c.consumerCount k)
  · rintro (k | k) <;> exact ⟨Nat.zero_le _, rfl⟩
  · intro k g l g' l' a step inv
    obtain ⟨inLoop, same⟩ := (step_iff.mp step).inLoop inv.1
    exact ⟨inLoop, same.trans inv.2⟩

def Local.made : Local → Nat
  | .producer pc i count output => i + (Local.filled (.producer pc i count output)).toNat
  | .consumer _ _ _ => 0

def Local.got : Local → Nat
  | .producer _ _ _ _ => 0
  | .consumer pc i count => i + (Local.taken (.consumer pc i count)).toNat

theorem sum_made_start : ∑ j, (c.system.locals₀ j).made = 0 := by
  refine sum_eq_zero fun j _ => ?_
  rcases j with j | j <;> rfl

theorem sum_got_start : ∑ j, (c.system.locals₀ j).got = 0 := by
  refine sum_eq_zero fun j _ => ?_
  rcases j with j | j <;> rfl

theorem written_length (h : c.system.Reachable s) :
    (written s.trace).length = ∑ k, (s.locals k).made := by
  have counted := h.accounted (c := fun s => ((written s.trace).length : Int)) (w := Local.made)
    (by rw [sum_made_start]; rfl)
    (fun {s k g l a} reach step => by
      have move := step_iff.mp step
      simp only [Config.move_trace, (adds reach move).written]
      generalize s.locals k = before at move
      cases move <;> simp [Local.storing, Local.made, Local.filled, Local.inside, Local.filling]
      omega)
  exact_mod_cast counted

theorem consumed_length (h : c.system.Reachable s) :
    (consumed s.trace).length = ∑ k, (s.locals k).got := by
  have counted := h.accounted (c := fun s => ((consumed s.trace).length : Int)) (w := Local.got)
    (by rw [sum_got_start]; rfl)
    (fun {s k g l a} reach step => by
      have move := step_iff.mp step
      simp only [Config.move_trace, (adds reach move).consumed]
      generalize s.locals k = before at move
      cases move <;> simp [Local.loading, Local.got, Local.taken, Local.inside, Local.taking]
      omega)
  exact_mod_cast counted

/-! ## Where a run can end -/

def Local.exited : Local → Bool
  | .producer .exited _ _ _ | .consumer .exited _ _ => true
  | _ => false

def Local.starting : Local → Bool
  | .producer .start _ _ _ | .consumer .start _ _ => true
  | _ => false

theorem enabled_of_move {g : Shared} {l : Local} {a : Action}
    (move : Move s.shared (s.locals k) g l a) : ¬ c.system.Terminal s := by
  intro stopped
  have step : c.system.next s k = some (s.move k g l a) :=
    System.next_eq_some.mpr ⟨_, _, _, step_iff.mpr move, rfl⟩
  rw [stopped k] at step
  cases step

theorem stopped_local (stopped : c.system.Terminal s) (k : c.Process) :
    (s.locals k).exited = true ∨ (s.locals k).starting = true := by
  by_contra other
  simp only [not_or, Bool.not_eq_true] at other
  obtain ⟨running, outside⟩ := other
  suffices moves : ∃ g l a, Move s.shared (s.locals k) g l a by
    obtain ⟨g, l, a, move⟩ := moves
    exact enabled_of_move move stopped
  cases at_k : s.locals k with
  | producer pc i count output =>
      cases pc with
      | top =>
          by_cases more : i < count
          · exact ⟨_, _, _, .producerEnter more⟩
          · exact ⟨_, _, _, .producerExit more⟩
      | start => rw [at_k] at outside; cases outside
      | index => exact ⟨_, _, _, .index⟩
      | item pos => exact ⟨_, _, _, .item⟩
      | printPos => exact ⟨_, _, _, .producerPrintPos⟩
      | printIndex => exact ⟨_, _, _, .producerPrintIndex⟩
      | printItem pos => exact ⟨_, _, _, .producerPrintItem⟩
      | incLoad => exact ⟨_, _, _, .producerIncLoad⟩
      | incStore tmp => exact ⟨_, _, _, .producerIncStore⟩
      | stop => exact ⟨_, _, _, .producerStop⟩
      | exited => rw [at_k] at running; cases running
  | consumer pc i count =>
      cases pc with
      | top =>
          by_cases more : i < count
          · exact ⟨_, _, _, .consumerEnter more⟩
          · exact ⟨_, _, _, .consumerExit more⟩
      | start => rw [at_k] at outside; cases outside
      | printPos => exact ⟨_, _, _, .consumerPrintPos⟩
      | printIndex => exact ⟨_, _, _, .consumerPrintIndex⟩
      | printItem pos => exact ⟨_, _, _, .consumerPrintItem⟩
      | incLoad => exact ⟨_, _, _, .consumerIncLoad⟩
      | incStore tmp => exact ⟨_, _, _, .consumerIncStore⟩
      | stop => exact ⟨_, _, _, .consumerStop⟩
      | exited => rw [at_k] at running; cases running

theorem stopped_outside (stopped : c.system.Terminal s) (k : c.Process) :
    (s.locals k).inside = false := by
  have place := stopped_local stopped k
  generalize s.locals k = l at place
  cases l with
  | producer pc i count output => cases pc <;> simp_all [Local.exited, Local.starting, Local.inside]
  | consumer pc i count => cases pc <;> simp_all [Local.exited, Local.starting, Local.inside]

theorem stopped_count (stopped : c.system.Terminal s) {q : Local → Bool}
    (within : ∀ l, q l = true → l.inside = true) : count q s.locals = 0 := by
  refine count_eq_zero_iff.mpr fun k => ?_
  rw [← Bool.not_eq_true]
  intro hk
  have inside := within _ hk
  rw [stopped_outside stopped k] at inside
  cases inside

theorem stopped_accounting (h : c.system.Reachable s) (stopped : c.system.Terminal s) :
    s.shared.sems .binary = 1 ∧
      s.shared.sems .empty + (written s.trace).length = c.n + (consumed s.trace).length ∧
      s.shared.sems .full + (consumed s.trace).length = (written s.trace).length := by
  have filling := stopped_count stopped filling_inside
  have filled := stopped_count stopped filled_inside
  have taking := stopped_count stopped taking_inside
  have taken := stopped_count stopped taken_inside
  have inside := stopped_count stopped (fun _ h => h)
  have binary := binary_accounting h
  have empty := empty_accounting h
  have full := full_accounting h
  omega

theorem stopped_producer (h : c.system.Reachable s) (stopped : c.system.Terminal s)
    {j : Fin c.producers} (waits : (s.locals (.inl j)).starting = true) :
    s.shared.sems .empty = 0 := by
  have role := consuming_eq h (.inl j)
  cases at_j : s.locals (.inl j) with
  | consumer pc i count => rw [at_j] at role; cases role
  | producer pc i count output =>
      rw [at_j] at waits
      cases pc with
      | start =>
          by_contra some_slot
          have binary := (stopped_accounting h stopped).1
          exact enabled_of_move (by rw [at_j]; exact .producerStart (by omega) (by omega)) stopped
      | _ => cases waits

theorem stopped_consumer (h : c.system.Reachable s) (stopped : c.system.Terminal s)
    {j : Fin c.consumers} (waits : (s.locals (.inr j)).starting = true) :
    s.shared.sems .full = 0 := by
  have role := consuming_eq h (.inr j)
  cases at_j : s.locals (.inr j) with
  | producer pc i count output => rw [at_j] at role; cases role
  | consumer pc i count =>
      rw [at_j] at waits
      cases pc with
      | start =>
          by_contra some_item
          have binary := (stopped_accounting h stopped).1
          exact enabled_of_move (by rw [at_j]; exact .consumerStart (by omega) (by omega)) stopped
      | _ => cases waits

/-! ## What each process has done by then -/

theorem made_of_exited {l : Local} (loop : l.InLoop) (role : l.consuming = false)
    (exited : l.exited = true) : l.made = l.limit := by
  cases l with
  | consumer pc i count => cases role
  | producer pc i count output =>
      cases pc with
      | exited =>
          simpa [Local.made, Local.filled, Local.inside, Local.limit, Local.InLoop] using loop
      | _ => cases exited

theorem made_of_starting {l : Local} (loop : l.InLoop) (role : l.consuming = false)
    (starting : l.starting = true) : l.made < l.limit := by
  cases l with
  | consumer pc i count => cases role
  | producer pc i count output =>
      cases pc with
      | start =>
          simpa [Local.made, Local.filled, Local.inside, Local.limit, Local.InLoop] using loop
      | _ => cases starting

theorem got_of_exited {l : Local} (loop : l.InLoop) (role : l.consuming = true)
    (exited : l.exited = true) : l.got = l.limit := by
  cases l with
  | producer pc i count output => cases role
  | consumer pc i count =>
      cases pc with
      | exited => simpa [Local.got, Local.taken, Local.inside, Local.limit, Local.InLoop] using loop
      | _ => cases exited

theorem got_of_starting {l : Local} (loop : l.InLoop) (role : l.consuming = true)
    (starting : l.starting = true) : l.got < l.limit := by
  cases l with
  | producer pc i count output => cases role
  | consumer pc i count =>
      cases pc with
      | start => simpa [Local.got, Local.taken, Local.inside, Local.limit, Local.InLoop] using loop
      | _ => cases starting

theorem written_length_producers (h : c.system.Reachable s) :
    (written s.trace).length = ∑ j, (s.locals (.inl j)).made := by
  have idle : ∑ j, (s.locals (.inr j)).made = 0 := by
    refine sum_eq_zero fun j _ => ?_
    have role := consuming_eq h (.inr j)
    cases at_j : s.locals (.inr j) with
    | consumer pc i count => rfl
    | producer pc i count output => rw [at_j] at role; cases role
  rw [written_length h, Fintype.sum_sum_type, idle, Nat.add_zero]

theorem consumed_length_consumers (h : c.system.Reachable s) :
    (consumed s.trace).length = ∑ j, (s.locals (.inr j)).got := by
  have idle : ∑ j, (s.locals (.inl j)).got = 0 := by
    refine sum_eq_zero fun j _ => ?_
    have role := consuming_eq h (.inl j)
    cases at_j : s.locals (.inl j) with
    | producer pc i count output => rfl
    | consumer pc i count => rw [at_j] at role; cases role
  rw [consumed_length h, Fintype.sum_sum_type, idle, Nat.zero_add]

theorem written_of_exited (h : c.system.Reachable s)
    (exited : ∀ j, (s.locals (.inl j)).exited = true) : (written s.trace).length = c.produced := by
  rw [written_length_producers h]
  refine sum_congr rfl fun j _ => ?_
  obtain ⟨loop, limit⟩ := inLoop h (.inl j)
  rw [made_of_exited loop (consuming_eq h _) (exited j), limit, Sum.elim_inl]

theorem consumed_of_exited (h : c.system.Reachable s)
    (exited : ∀ j, (s.locals (.inr j)).exited = true) : (consumed s.trace).length = c.wanted := by
  rw [consumed_length_consumers h]
  refine sum_congr rfl fun j _ => ?_
  obtain ⟨loop, limit⟩ := inLoop h (.inr j)
  rw [got_of_exited loop (consuming_eq h _) (exited j), limit, Sum.elim_inr]

theorem written_lt (h : c.system.Reachable s) (stopped : c.system.Terminal s) {k : Fin c.producers}
    (waits : (s.locals (.inl k)).starting = true) : (written s.trace).length < c.produced := by
  rw [written_length_producers h]
  refine sum_lt_sum (fun j _ => ?_) ⟨k, mem_univ k, ?_⟩
  · obtain ⟨loop, limit⟩ := inLoop h (.inl j)
    rw [Sum.elim_inl] at limit
    rcases stopped_local stopped (.inl j) with exited | starting
    · exact ((made_of_exited loop (consuming_eq h _) exited).trans limit).le
    · exact limit ▸ (made_of_starting loop (consuming_eq h _) starting).le
  · obtain ⟨loop, limit⟩ := inLoop h (.inl k)
    rw [Sum.elim_inl] at limit
    exact limit ▸ made_of_starting loop (consuming_eq h _) waits

theorem consumed_lt (h : c.system.Reachable s) (stopped : c.system.Terminal s)
    {k : Fin c.consumers} (waits : (s.locals (.inr k)).starting = true) :
    (consumed s.trace).length < c.wanted := by
  rw [consumed_length_consumers h]
  refine sum_lt_sum (fun j _ => ?_) ⟨k, mem_univ k, ?_⟩
  · obtain ⟨loop, limit⟩ := inLoop h (.inr j)
    rw [Sum.elim_inr] at limit
    rcases stopped_local stopped (.inr j) with exited | starting
    · exact ((got_of_exited loop (consuming_eq h _) exited).trans limit).le
    · exact limit ▸ (got_of_starting loop (consuming_eq h _) starting).le
  · obtain ⟨loop, limit⟩ := inLoop h (.inr k)
    rw [Sum.elim_inr] at limit
    exact limit ▸ got_of_starting loop (consuming_eq h _) waits

/-! ## The three ends -/

def AllFinished (s : State c) : Prop := ∀ k, (s.locals k).exited = true

def OnlyBlocked (s : State c) (side : c.Process → Bool) (sem : Sem) : Prop :=
  (∃ k, (s.locals k).exited = false) ∧
    ∀ k, (s.locals k).exited = false →
      side k = true ∧ (s.locals k).starting = true ∧ s.shared.sems sem = 0

theorem not_exited_of_starting {l : Local} (starting : l.starting = true) : l.exited = false := by
  cases l with
  | producer pc i count output => cases pc <;> simp_all [Local.exited, Local.starting]
  | consumer pc i count => cases pc <;> simp_all [Local.exited, Local.starting]

theorem stopped_cases (positive : 0 < c.n) (h : c.system.Reachable s)
    (stopped : c.system.Terminal s) :
    (AllFinished s ∧ (written s.trace).length = c.produced ∧
        (consumed s.trace).length = c.wanted ∧ c.wanted ≤ c.produced ∧
        c.produced ≤ c.wanted + c.n) ∨
      (OnlyBlocked s Sum.isRight .full ∧ (written s.trace).length = c.produced ∧
        c.produced < c.wanted) ∨
      (OnlyBlocked s Sum.isLeft .empty ∧ (written s.trace).length = c.wanted + c.n ∧
        c.wanted + c.n < c.produced) := by
  obtain ⟨-, empty, full⟩ := stopped_accounting h stopped
  by_cases producer_waits : ∃ j, (s.locals (.inl j)).starting = true
  · obtain ⟨j, waits⟩ := producer_waits
    have no_slot := stopped_producer h stopped waits
    have left := written_lt h stopped waits
    have consumers (k : Fin c.consumers) : (s.locals (.inr k)).exited = true := by
      rcases stopped_local stopped (.inr k) with exited | starting
      · exact exited
      · have no_item := stopped_consumer h stopped starting
        omega
    have all := consumed_of_exited h consumers
    refine Or.inr (Or.inr ⟨⟨⟨.inl j, not_exited_of_starting waits⟩, ?_⟩, by omega, by omega⟩)
    rintro (k | k) running
    · exact ⟨rfl, (stopped_local stopped _).resolve_left (by simp [running]), no_slot⟩
    · simp [consumers k] at running
  · have producers (j : Fin c.producers) : (s.locals (.inl j)).exited = true :=
      (stopped_local stopped (.inl j)).resolve_right fun waits => producer_waits ⟨j, waits⟩
    have all := written_of_exited h producers
    by_cases consumer_waits : ∃ j, (s.locals (.inr j)).starting = true
    · obtain ⟨j, waits⟩ := consumer_waits
      have no_item := stopped_consumer h stopped waits
      have left := consumed_lt h stopped waits
      refine Or.inr (Or.inl ⟨⟨⟨.inr j, not_exited_of_starting waits⟩, ?_⟩, all, by omega⟩)
      rintro (k | k) running
      · simp [producers k] at running
      · exact ⟨rfl, (stopped_local stopped _).resolve_left (by simp [running]), no_item⟩
    · have consumers (k : Fin c.consumers) : (s.locals (.inr k)).exited = true :=
        (stopped_local stopped (.inr k)).resolve_right fun waits => consumer_waits ⟨k, waits⟩
      have all' := consumed_of_exited h consumers
      refine Or.inl ⟨?_, all, all', by omega, by omega⟩
      rintro (k | k)
      · exact producers k
      · exact consumers k

theorem stopped_positions (h : c.system.Reachable s) (stopped : c.system.Terminal s) :
    s.shared.mem shmPosProducer = (written s.trace).length ∧
      s.shared.mem shmPosConsumer = (consumed s.trace).length := by
  have producer := posProducer_accounting h
  have consumer := posConsumer_accounting h
  rw [stopped_count stopped filledAhead_inside] at producer
  rw [stopped_count stopped takenAhead_inside] at consumer
  exact ⟨by simpa using producer, by simpa using consumer⟩

theorem exists_end (c : Setup) : ∃ t, c.system.Reachable t ∧ c.system.Terminal t :=
  System.exists_terminal (r := fun s => ∑ j, (s.locals j).rank) (fun _ => rank_falls) .refl

theorem OnlyBlocked.not_finished {side : c.Process → Bool} {sem : Sem}
    (blocked : OnlyBlocked s side sem) : ¬ AllFinished s := by
  obtain ⟨⟨k, running⟩, -⟩ := blocked
  intro finished
  rw [finished k] at running
  cases running

theorem completion (c : Setup) (positive : 0 < c.n) :
    (¬ ∃ run : Nat → State c,
      run 0 = c.system.init ∧ ∀ n, c.system.Step (run n) (run (n + 1))) ∧
    ((∀ t, c.system.Reachable t → c.system.Terminal t →
        AllFinished t ∧ t.shared.mem shmPosProducer = c.produced ∧
          t.shared.mem shmPosConsumer = c.wanted) ↔
      c.wanted ≤ c.produced ∧ c.produced ≤ c.wanted + c.n) ∧
    (c.produced < c.wanted → ∀ t, c.system.Reachable t → c.system.Terminal t →
      OnlyBlocked t Sum.isRight .full) ∧
    (c.wanted + c.n < c.produced → ∀ t, c.system.Reachable t → c.system.Terminal t →
      OnlyBlocked t Sum.isLeft .empty) := by
  refine ⟨System.no_infinite_run (r := fun s => ∑ j, (s.locals j).rank) (fun _ => rank_falls),
    ⟨?_, ?_⟩, ?_, ?_⟩
  · intro all
    obtain ⟨t, reach, stopped⟩ := exists_end c
    have finished := (all t reach stopped).1
    rcases stopped_cases positive reach stopped with ⟨-, -, -, bounds⟩ | ⟨blocked, -⟩ | ⟨blocked, -⟩
    · exact bounds
    · exact absurd finished blocked.not_finished
    · exact absurd finished blocked.not_finished
  · intro bounds t reach stopped
    obtain ⟨producer, consumer⟩ := stopped_positions reach stopped
    rcases stopped_cases positive reach stopped with
      ⟨finished, made, got, -⟩ | ⟨-, -, short⟩ | ⟨-, -, long⟩
    · exact ⟨finished, by rw [producer, made], by rw [consumer, got]⟩
    · omega
    · omega
  · intro short t reach stopped
    rcases stopped_cases positive reach stopped with ⟨-, -, -, bounds⟩ | ⟨blocked, -⟩ | ⟨-, -, long⟩
    · omega
    · exact blocked
    · omega
  · intro long t reach stopped
    rcases stopped_cases positive reach stopped with
      ⟨-, -, -, bounds⟩ | ⟨-, -, short⟩ | ⟨blocked, -⟩
    · omega
    · omega
    · exact blocked

theorem completion_main :
    (¬ ∃ run : Nat → State mainSetup,
      run 0 = mainSetup.system.init ∧ ∀ n, mainSetup.system.Step (run n) (run (n + 1))) ∧
    ∀ t, mainSetup.system.Reachable t → mainSetup.system.Terminal t →
      AllFinished t ∧ t.shared.mem shmPosProducer = 9 ∧ t.shared.mem shmPosConsumer = 9 := by
  obtain ⟨finite, ends, -⟩ := completion mainSetup (by decide)
  exact ⟨finite, ends.mpr (by decide)⟩

end OsUnix.BoundedBuffer
