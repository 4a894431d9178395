import OsUnix.Tasklet.Model
import Mathlib.Data.List.Infix

/-!
# What the tasklet module leaves behind

The handler outlives `tasklet_kill`, so an interrupt can schedule the tasklet again. And a load that
gets no interrupt keeps its `/proc` entry.
-/

namespace OsUnix.Tasklet
open Kernel

variable {s t : Module} {event : Event} {granted : Bool}

structure Gone (t : Module) : Prop where
  tasklet : t.stage = .unloaded → t.tasklet.Idle
  registered : t.stage = .unloaded → t.registered = false
  proc : t.stage = .unloaded → t.proc = false

structure Orderly (s : Module) (event : Event) : Prop where
  requestIrq : event = .run false → s.stage ≠ .requestIrq
  schedule : event = .handle → s.handler = .schedule → s.stage ≠ .freeIrq

def Stage.registered : Stage → Bool
  | .loaded | .taskletKill | .freeIrq => true
  | _ => false

def Stage.proc : Stage → Bool
  | .unloaded | .procCreate => false
  | _ => true

def Stage.active : Stage → Bool
  | .loaded | .taskletKill => true
  | _ => false

theorem active_of_registered {stage : Stage} (registered : stage.registered = true)
    (other : stage ≠ .freeIrq) : stage.active = true := by
  cases stage <;> first | rfl | exact absurd rfl other | cases registered

structure Inv (s : Module) : Prop where
  registered : s.registered = s.stage.registered
  handler : s.handler ≠ .idle → s.stage.registered = true
  proc : s.proc = s.stage.proc
  procFile : s.stage.proc = true → s.procFile = true
  tasklet : s.stage.active = false → s.tasklet.Idle

theorem Inv.start : Inv .unloaded :=
  ⟨rfl, fun other => absurd rfl other, rfl, nofun, fun _ => Work.idle_fresh⟩

theorem Inv.gone (inv : Inv s) : Gone s where
  tasklet gone := inv.tasklet (by rw [gone]; rfl)
  registered gone := by rw [inv.registered, gone]; rfl
  proc gone := by rw [inv.proc, gone]; rfl

theorem Inv.advance (inv : Inv s) (orderly : Orderly s (.run granted))
    (step : s.advance granted = some t) : Inv t := by
  obtain ⟨registered, handler, proc, procFile, tasklet⟩ := inv
  unfold Module.advance at step
  split at step <;> rename_i at_stage <;> rw [at_stage] at registered handler proc procFile tasklet
  · cases step
    unfold Module.procCreate
    split
    · exact ⟨registered, handler, rfl, fun _ => rfl, tasklet⟩
    · exact ⟨registered, handler, proc, nofun, tasklet⟩
  · cases step
    cases granted with
    | true => exact ⟨rfl, fun _ => rfl, proc, procFile, nofun⟩
    | false => exact absurd at_stage (orderly.requestIrq rfl)
  · obtain ⟨idle, eq⟩ := Option.ite_none_right_eq_some.mp step
    cases eq
    exact ⟨registered, handler, proc, procFile, fun _ => idle⟩
  · obtain ⟨idle, eq⟩ := Option.ite_none_right_eq_some.mp step
    cases eq
    exact ⟨rfl, fun other => absurd idle other, proc, procFile, tasklet⟩
  · cases step
    exact ⟨registered, handler, if_pos (procFile rfl), nofun, tasklet⟩
  · cases step
  · cases step

theorem Inv.step (inv : Inv s) (orderly : Orderly s event) (step : s.step event = some t) :
    Inv t := by
  cases event with
  | run granted => exact inv.advance orderly step
  | load =>
      obtain ⟨registered, handler, proc, -, -⟩ := inv
      obtain ⟨at_stage, eq⟩ := Option.ite_none_right_eq_some.mp step
      rw [at_stage] at registered handler proc
      cases eq
      exact ⟨registered, handler, proc, nofun, fun _ => Work.idle_fresh⟩
  | unload =>
      obtain ⟨registered, handler, proc, procFile, -⟩ := inv
      obtain ⟨at_stage, eq⟩ := Option.ite_none_right_eq_some.mp step
      rw [at_stage] at registered handler proc procFile
      cases eq
      exact ⟨registered, handler, proc, procFile, nofun⟩
  | interrupt =>
      obtain ⟨ready, eq⟩ := Option.ite_none_right_eq_some.mp step
      cases eq
      exact ⟨inv.registered, fun _ => inv.registered ▸ ready.1, inv.proc, inv.procFile,
        inv.tasklet⟩
  | handle =>
      obtain ⟨calls, eq⟩ := Option.ite_none_right_eq_some.mp step
      cases eq
      refine ⟨inv.registered, fun other => absurd rfl other, inv.proc, inv.procFile,
        fun inactive => ?_⟩
      -- the handler runs, so the stage is one of those before `free_irq` has returned
      have registered := inv.handler (by rw [calls]; nofun)
      have active := active_of_registered registered (orderly.schedule rfl calls)
      cases active.symm.trans inactive
  | start =>
      obtain ⟨w, starts, rfl⟩ := Option.map_eq_some_iff.mp step
      refine ⟨inv.registered, inv.handler, inv.proc, inv.procFile, fun inactive => ?_⟩
      rw [(inv.tasklet inactive).not_start] at starts
      cases starts
  | finish =>
      obtain ⟨w, finishes, rfl⟩ := Option.map_eq_some_iff.mp step
      refine ⟨inv.registered, inv.handler, inv.proc, inv.procFile, fun inactive => ?_⟩
      rw [(inv.tasklet inactive).not_finish] at finishes
      cases finishes

theorem gone_of_orderly {events : List Event}
    (orderly : lifecycle.Before Orderly .unloaded events) :
    lifecycle.Always (fun _ _ t _ => Gone t) .unloaded events := by
  apply orderly.always Inv.start
  intro s event t r inv orderly step
  have next := inv.step orderly (Component.silent_step.mp step)
  exact ⟨next.gone, next⟩

theorem exec_late (at_stage : s.stage = .freeIrq) (calls : s.handler = .schedule) :
    ∃ t, lifecycle.exec s (.handle :: List.replicate 2 (.run true)) = some (t, [(), (), ()]) ∧
      ¬ Gone t := by
  have handled : lifecycle.step s .handle =
      some ({ s with handler := .idle, tasklet := s.tasklet.queue }, ()) :=
    Component.silent_step.mpr (if_pos calls)
  have freed : lifecycle.step { s with handler := .idle, tasklet := s.tasklet.queue } (.run true) =
      some ({ s with
        stage := .removeProcEntry, registered := false, handler := .idle,
        tasklet := s.tasklet.queue }, ()) := by
    apply Component.silent_step.mpr
    rw [Module.step, Module.advance]
    simp only [at_stage, if_true]
  refine ⟨_, Component.exec_cons handled (Component.exec_cons freed
    (Component.exec_cons rfl rfl)), fun gone => ?_⟩
  exact (gone.tasklet rfl).1 Work.pending_queue

theorem exists_left {events : List Event} (late : ¬ lifecycle.Before Orderly .unloaded events) :
    ∃ before n, before <+: events ∧ ¬ lifecycle.Always (fun _ _ t _ => Gone t) .unloaded
      (before ++ List.replicate n (.run true)) := by
  obtain ⟨before, event, after, s, rs, rfl, run, orderly, breaks⟩ :=
    Component.exists_first_exception late
  have inv : Inv s := orderly.invariant Inv.start
    (fun inv orderly step => inv.step orderly (Component.silent_step.mp step)) run
  by_cases fails : event = .run false ∧ s.stage = .requestIrq
  · obtain ⟨rfl, at_stage⟩ := fails
    refine ⟨before ++ [.run false], 0, ⟨after, by simp⟩, fun always => ?_⟩
    rw [List.append_assoc] at always
    have step : lifecycle.step s (.run false) = some ({ s with stage := .unloaded }, ()) := by
      apply Component.silent_step.mpr
      rw [Module.step, Module.advance, at_stage]
      rfl
    obtain ⟨gone, -⟩ := Component.always_append always run _ _ step
    have entry : s.proc = true := inv.proc.trans (by rw [at_stage]; rfl)
    cases entry.symm.trans (gone.proc rfl)
  · have late : event = .handle ∧ s.handler = .schedule ∧ s.stage = .freeIrq := by
      by_contra other
      refine breaks ⟨fun run at_stage => fails ⟨run, at_stage⟩, fun handles calls at_stage => ?_⟩
      exact other ⟨handles, calls, at_stage⟩
    obtain ⟨rfl, calls, at_stage⟩ := late
    obtain ⟨t, rest, left⟩ := exec_late at_stage calls
    refine ⟨before ++ [.handle], 2, ⟨after, by simp⟩, fun always => ?_⟩
    rw [List.append_assoc] at always
    obtain ⟨_, _, _, gone⟩ := (Component.always_append always run).last rest
    exact left gone

/-- Nothing is left in a run, wherever `my_tasklet_exit` goes on alone, exactly when `request_irq`
does not fail and nothing schedules the tasklet too late. -/
theorem gone_iff (events : List Event) :
    (∀ before n, before <+: events → lifecycle.Always (fun _ _ t _ => Gone t) .unloaded
      (before ++ List.replicate n (.run true))) ↔
      lifecycle.Before Orderly .unloaded events := by
  constructor
  · intro gone
    by_contra late
    obtain ⟨before, n, first, left⟩ := exists_left late
    exact left (gone before n first)
  · rintro orderly before n ⟨after, rfl⟩
    apply gone_of_orderly
    refine Component.before_append.mpr ⟨(Component.before_append.mp orderly).1, fun t rs _ => ?_⟩
    apply Component.before_of_forall
    intro event mem s
    rw [List.eq_of_mem_replicate mem]
    exact ⟨nofun, nofun⟩

theorem gone_fails : ¬ lifecycle.Always (fun _ _ t _ => Gone t) .unloaded
    [.load, .run true, .run false] := by
  intro always
  obtain ⟨-, always⟩ := always _ _ rfl
  obtain ⟨-, always⟩ := always _ _ rfl
  obtain ⟨gone, -⟩ := always _ _ rfl
  cases gone.proc rfl

end OsUnix.Tasklet
