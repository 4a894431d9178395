import OsUnix.WorkQueue.Model

/-!
# Interrupts while the module comes and goes

The handler is there before the work items are, and it is still there when the queue goes. All else
is in order.
-/

namespace OsUnix.WorkQueue
open Kernel

variable {s t : Module} {event : Event} {k : Slot} {w w' : Work} {granted : Bool}

structure Sound (s : Module) (event : Event) : Prop where
  calls : event = .handle → ∀ k, s.handler = .queue k → s.wq.Usable ∧ ∃ w, s.work k = some w
  frees : ∀ granted k, event = .run granted → s.stage = .kfree k → ∀ w, s.work k = some w → w.Idle

def Stage.Ending (stage : Stage) : Prop :=
  stage = .destroying ∨ stage = .closing ∨ stage = .freeIrq

instance (stage : Stage) : Decidable stage.Ending := inferInstanceAs (Decidable (_ ∨ _ ∨ _))

def Clear (s : Module) (event : Event) : Prop :=
  event = .handle → ∀ k, s.handler = .queue k → s.stage ≠ .initWork k ∧ ¬ s.stage.Ending

/-! ## What holds at each stage -/

def Stage.registered : Stage → Bool
  | .unloaded | .requestIrq | .kfree _ => false
  | _ => true

def Stage.queue : Stage → Queue
  | .unloaded | .requestIrq | .createWorkqueue | .undoIrq => .absent
  | .destroying => .draining
  | .closing => .closing
  | .freeIrq | .kfree _ => .destroyed
  | _ => .active

inductive Phase
  | absent
  | raw
  | settled
  | freed
deriving DecidableEq

def Stage.phase : Stage → Slot → Phase
  | .unloaded, _ | .requestIrq, _ | .createWorkqueue, _ | .undoIrq, _ => .absent
  | .allocWork .work1, _ | .allocWork .work2, .work2 | .initWork .work1, .work2 => .absent
  | .initWork .work1, .work1 | .initWork .work2, .work2 => .raw
  | .kfree .work2, .work1 => .freed
  | _, _ => .settled

def Module.In (s : Module) (k : Slot) : Phase → Prop
  | .absent => s.item k = none
  | .raw => s.item k ≠ none ∧ s.work k = none
  | .settled => s.item k ≠ none → ∃ w, s.listed k = some w
  | .freed => s.work k = none

structure Inv (s : Module) : Prop where
  registered : s.registered = s.stage.registered
  handler : s.handler ≠ .idle → s.registered = true
  pointer : ∀ k, s.handler = .queue k → s.item k ≠ none
  wq : s.wq = s.stage.queue
  item : ∀ k, s.In k (s.stage.phase k)
  idle : s.stage.queue.Over → ∀ k w, s.work k = some w → w.Idle

theorem Inv.start : Inv .unloaded :=
  ⟨rfl, fun other => absurd rfl other, nofun, rfl, fun _ => rfl, fun _ _ _ => nofun⟩

theorem listed_eq_some :
    s.listed k = some w ↔ ∃ id data, s.item k = some ⟨.ready w, id, data⟩ := by
  constructor
  · intro listed
    obtain ⟨⟨cell, id, data⟩, item, ready⟩ := Option.bind_eq_some_iff.mp listed
    cases cell with
    | ready _ =>
        cases ready
        exact ⟨id, data, item⟩
    | raw | lost _ | freed => cases ready
  · rintro ⟨id, data, item⟩
    rw [Module.listed, item]
    rfl

theorem work_of_item {cell : Cell} {id data : Int} (item : s.item k = some ⟨cell, id, data⟩) :
    s.work k = cell.work := by
  rw [Module.work, item]
  rfl

theorem work_of_listed (listed : s.listed k = some w) : s.work k = some w := by
  obtain ⟨id, data, item⟩ := listed_eq_some.mp listed
  exact work_of_item item

theorem raw_iff : ∀ (stage : Stage) (k : Slot), stage.phase k = .raw ↔ stage = .initWork k := by
  decide

theorem usable_of_registered : ∀ (stage : Stage) (k : Slot), stage.registered = true →
    stage.phase k ≠ .absent → ¬ stage.Ending →
    stage.queue.Usable ∧ (stage.phase k = .raw ∨ stage.phase k = .settled) := by
  decide

theorem not_ending_of_usable : ∀ stage : Stage, stage.queue.Usable → ¬ stage.Ending := by
  decide

/-! ## One call of queue_work -/

theorem Inv.calls (inv : Inv s) (calls : s.handler = .queue k) :
    s.stage.registered = true ∧ s.stage.phase k ≠ .absent := by
  constructor
  · rw [← inv.registered]
    exact inv.handler (by rw [calls]; nofun)
  · intro absent
    have item := inv.item k
    rw [absent] at item
    exact inv.pointer k calls item

theorem Inv.usable_of_clear (inv : Inv s) (calls : s.handler = .queue k)
    (inits : s.stage ≠ .initWork k) (stays : ¬ s.stage.Ending) :
    s.wq.Usable ∧ ∃ w, s.listed k = some w := by
  obtain ⟨registered, present⟩ := inv.calls calls
  obtain ⟨usable, phase⟩ := usable_of_registered s.stage k registered present stays
  rw [← inv.wq] at usable
  have settled := phase.resolve_left fun raw => inits ((raw_iff s.stage k).mp raw)
  have item := inv.item k
  rw [settled] at item
  exact ⟨usable, item (inv.pointer k calls)⟩

theorem Inv.clear_of_sound (inv : Inv s) (usable : s.wq.Usable) (work : s.work k = some w) :
    s.stage ≠ .initWork k ∧ ¬ s.stage.Ending := by
  constructor
  · intro inits
    have item := inv.item k
    rw [(raw_iff s.stage k).mpr inits] at item
    cases work.symm.trans item.2
  · rw [inv.wq] at usable
    exact not_ending_of_usable s.stage usable

theorem sound_iff_clear (inv : Inv s) : Sound s event ↔ Clear s event := by
  constructor
  · rintro sound rfl k calls
    obtain ⟨usable, w, work⟩ := sound.calls rfl k calls
    exact inv.clear_of_sound usable work
  · intro clear
    have ended (k : Slot) (frees : s.stage = .kfree k) : s.stage.queue.Over := by
      rw [frees]
      exact .inr rfl
    refine ⟨fun handles k calls => ?_, fun _ k _ frees => inv.idle (ended k frees) k⟩
    obtain ⟨inits, stays⟩ := clear handles k calls
    obtain ⟨usable, w, listed⟩ := inv.usable_of_clear calls inits stays
    exact ⟨usable, w, work_of_listed listed⟩

/-! ## Steps -/

theorem set_self {item : Option Item} : (s.set k item).item k = item := Function.update_self ..

theorem set_other {j : Slot} {item : Option Item} (other : j ≠ k) :
    (s.set k item).item j = s.item j :=
  Function.update_of_ne other ..

theorem work_congr {j : Slot} (item : t.item j = s.item j) : t.work j = s.work j := by
  rw [Module.work, item, Module.work]

theorem in_congr {phase : Phase} {j : Slot} (item : t.item j = s.item j) :
    t.In j phase ↔ s.In j phase := by
  cases phase <;> simp only [Module.In, Module.listed, item, work_congr item]

theorem Inv.not_lost (inv : Inv s) {id data : Int} : s.item k ≠ some ⟨.lost w, id, data⟩ := by
  intro lost
  have work : s.work k = some w := work_of_item lost
  have item := inv.item k
  cases phase : s.stage.phase k with
  | absent =>
      rw [phase] at item
      cases lost.symm.trans item
  | raw =>
      rw [phase] at item
      cases work.symm.trans item.2
  | settled =>
      rw [phase] at item
      obtain ⟨w', listed⟩ := item (by rw [lost]; nofun)
      obtain ⟨_, _, ready⟩ := listed_eq_some.mp listed
      cases lost.symm.trans ready
  | freed =>
      rw [phase] at item
      cases work.symm.trans item

theorem Inv.touch (inv : Inv s) (listed : s.listed k = some w) (id data : Int)
    (idle : s.stage.queue.Over → w'.Idle) : Inv (s.set k (some ⟨.ready w', id, data⟩)) where
  registered := inv.registered
  handler := inv.handler
  pointer j calls := by
    rcases eq_or_ne j k with rfl | other
    · rw [set_self]
      nofun
    · rw [set_other other]
      exact inv.pointer j calls
  wq := inv.wq
  item j := by
    show (s.set k _).In j (s.stage.phase j)
    rcases eq_or_ne j k with rfl | other
    · have item := inv.item j
      cases phase : s.stage.phase j with
      | absent =>
          rw [phase] at item
          rw [Module.listed, item] at listed
          cases listed
      | raw =>
          rw [phase] at item
          cases (work_of_listed listed).symm.trans item.2
      | settled => exact fun _ => ⟨w', listed_eq_some.mpr ⟨id, data, set_self⟩⟩
      | freed =>
          rw [phase] at item
          cases (work_of_listed listed).symm.trans item
    · exact (in_congr (set_other other)).mpr (inv.item j)
  idle ended j v used := by
    rcases eq_or_ne j k with rfl | other
    · cases (work_of_item set_self).symm.trans used
      exact idle ended
    · rw [work_congr (set_other other)] at used
      exact inv.idle ended j v used

theorem Inv.handle (inv : Inv s) (clear : Clear s .handle) (step : s.handle = some t) : Inv t := by
  unfold Module.handle at step
  split at step
  · cases step
  · rename_i j calls
    cases step
    have registered : s.registered = true := inv.handler (by rw [calls]; nofun)
    -- the handler goes on to `queue_work` only with a pointer that it has found set
    refine ⟨inv.registered, fun _ => registered, fun k next => ?_, inv.wq, inv.item, inv.idle⟩
    by_cases present : (s.item j).isSome = true
    · rw [if_pos present] at next
      cases next
      exact Option.isSome_iff_ne_none.mp present
    · rw [if_neg present] at next
      cases j <;> cases next
  · rename_i j calls
    cases step
    obtain ⟨inits, stays⟩ := clear rfl j calls
    obtain ⟨usable, w, listed⟩ := inv.usable_of_clear calls inits stays
    obtain ⟨id, data, item⟩ := listed_eq_some.mp listed
    have registered : s.registered = true := inv.handler (by rw [calls]; nofun)
    have queued : s.queueWork j = s.set j (some ⟨.ready w.queue, id, data⟩) := by
      rw [Module.queueWork, item]
      dsimp only
      rw [if_pos (.inr (.inl usable))]
    have touched : Inv (s.queueWork j) := by
      rw [queued]
      refine inv.touch listed id data fun ended => ?_
      rw [← inv.wq, usable] at ended
      exact ended.elim nofun nofun
    refine ⟨touched.registered, fun _ => ?_, fun k next => ?_, touched.wq, touched.item,
      touched.idle⟩
    · rw [queued]
      exact registered
    · cases j <;> cases next

theorem Inv.start_item (inv : Inv s) (step : s.start k = some t) : Inv t := by
  unfold Module.start at step
  split at step
  · rename_i w id data item
    obtain ⟨w', starts, rfl⟩ := Option.map_eq_some_iff.mp step
    have touched : Inv (s.set k (some ⟨.ready w', id, data + 1⟩)) := by
      refine inv.touch (listed_eq_some.mpr ⟨id, data, item⟩) id (data + 1) fun ended => ?_
      rw [(inv.idle ended k w (work_of_item item)).not_start] at starts
      cases starts
    exact ⟨touched.registered, touched.handler, touched.pointer, touched.wq, touched.item,
      touched.idle⟩
  · cases step

theorem Inv.finish_item (inv : Inv s) (step : s.finish k = some t) : Inv t := by
  unfold Module.finish at step
  split at step
  · rename_i w id data item
    obtain ⟨w', finishes, rfl⟩ := Option.map_eq_some_iff.mp step
    refine inv.touch (listed_eq_some.mpr ⟨id, data, item⟩) id data fun ended => ?_
    rw [(inv.idle ended k w (work_of_item item)).not_finish] at finishes
    cases finishes
  · rename_i w id data item
    exact absurd item inv.not_lost
  · cases step

theorem Inv.goto (inv : Inv s) {now next : Stage} {registered : Bool} {wq : Queue}
    {target : Slot → Nat} (at_stage : s.stage = now) (handled : registered = next.registered)
    (kept : s.handler ≠ .idle → registered = true) (queue : wq = next.queue)
    (phase : ∀ k, next.phase k = now.phase k)
    (idle : next.queue.Over → ∀ k w, s.work k = some w → w.Idle) :
    Inv { s with stage := next, registered, wq, target } where
  registered := handled
  handler := kept
  pointer := inv.pointer
  wq := queue
  item k := by
    show s.In k (next.phase k)
    rw [phase k, ← at_stage]
    exact inv.item k
  idle := idle

theorem Inv.assign (inv : Inv s) {item : Option Item} {now next : Stage} (at_stage : s.stage = now)
    (registered : next.registered = now.registered) (wq : next.queue = now.queue)
    (pointer : s.handler = .queue k → item ≠ none) (here : (s.set k item).In k (next.phase k))
    (others : ∀ j, j ≠ k → next.phase j = now.phase j)
    (idle : now.queue.Over → ∀ w, (s.set k item).work k = some w → w.Idle) :
    Inv { s.set k item with stage := next } where
  registered := by
    show s.registered = next.registered
    rw [inv.registered, at_stage, registered]
  handler := inv.handler
  pointer j calls := by
    show (s.set k item).item j ≠ none
    rcases eq_or_ne j k with rfl | other
    · rw [set_self]
      exact pointer calls
    · rw [set_other other]
      exact inv.pointer j calls
  wq := by
    show s.wq = next.queue
    rw [inv.wq, at_stage, wq]
  item j := by
    show (s.set k item).In j (next.phase j)
    rcases eq_or_ne j k with rfl | other
    · exact here
    · rw [others j other, ← at_stage]
      exact (in_congr (set_other other)).mpr (inv.item j)
  idle ended j w work := by
    have ended : next.queue.Over := ended
    have before : now.queue.Over := wq ▸ ended
    have work : (s.set k item).work j = some w := work
    rcases eq_or_ne j k with rfl | other
    · exact idle before w work
    · rw [work_congr (set_other other)] at work
      exact inv.idle (at_stage ▸ before) j w work

theorem Inv.leave (handler : s.handler = .idle) (registered : s.registered = false) :
    Inv s.leave where
  registered := registered
  handler other := absurd handler other
  pointer k calls := by
    cases handler.symm.trans calls
  wq := rfl
  item _ := rfl
  idle := nofun

theorem Inv.handler_idle (inv : Inv s) (registered : s.stage.registered = false) :
    s.handler = .idle ∧ s.registered = false := by
  have off := inv.registered.trans registered
  refine ⟨?_, off⟩
  by_contra other
  cases (inv.handler other).symm.trans off

theorem Inv.allocWork (inv : Inv s) (at_stage : s.stage = .allocWork k) (granted : Bool) :
    Inv (s.allocWork k granted) := by
  have absent : s.stage.phase k = .absent := by
    rw [at_stage]
    cases k <;> rfl
  have null := inv.item k
  rw [absent] at null
  cases granted with
  | true =>
      refine inv.assign at_stage rfl rfl (fun _ => nofun) ?_ (by cases k <;> decide) nofun
      rw [(raw_iff _ k).mpr rfl, Module.In, set_self, Module.work, set_self]
      exact ⟨nofun, rfl⟩
  | false =>
      refine inv.assign at_stage (by cases k <;> rfl) (by cases k <;> rfl)
        (fun calls => absurd null (inv.pointer k calls)) ?_ (by cases k <;> decide) nofun
      have settled : (Stage.afterAlloc k).phase k = .settled := by cases k <;> rfl
      rw [settled, Module.In, set_self]
      exact fun present => absurd rfl present

theorem Inv.initWork (inv : Inv s) (at_stage : s.stage = .initWork k) : Inv (s.initWork k) := by
  have item := inv.item k
  rw [(raw_iff _ k).mpr at_stage] at item
  obtain ⟨⟨cell, id, data⟩, present⟩ := Option.ne_none_iff_exists'.mp item.1
  rw [Module.initWork, present]
  refine inv.assign at_stage (by cases k <;> rfl) (by cases k <;> rfl) (fun _ => nofun) ?_
    (by cases k <;> decide) nofun
  have settled : (Stage.afterAlloc k).phase k = .settled := by cases k <;> rfl
  rw [settled]
  exact fun _ => ⟨.fresh, listed_eq_some.mpr ⟨id, data, set_self⟩⟩

theorem Inv.idle_of_drained (inv : Inv s) (drained : s.drained k = true)
    (work : s.work k = some w) : w.Idle := by
  obtain ⟨⟨cell, id, data⟩, item, used⟩ := Option.bind_eq_some_iff.mp work
  cases cell with
  | ready _ =>
      cases used
      rw [Module.drained, item] at drained
      exact of_decide_eq_true drained
  | lost _ => exact absurd item inv.not_lost
  | raw | freed => cases used

theorem Inv.kfree (inv : Inv s) (at_stage : s.stage = .kfree .work1) :
    Inv { s.kfree .work1 with stage := .kfree .work2 } := by
  obtain ⟨idle, -⟩ := inv.handler_idle (by rw [at_stage]; rfl)
  have gone : (s.kfree .work1).work .work1 = none := by
    rw [Module.work, Module.kfree, set_self]
    cases s.item .work1 <;> rfl
  refine inv.assign at_stage rfl rfl (fun calls => ?_) gone (by decide) fun _ w work => ?_
  · cases idle.symm.trans calls
  · cases gone.symm.trans work

theorem Inv.advance (inv : Inv s) (step : s.advance granted = some t) : Inv t := by
  have registered := inv.registered
  have wq := inv.wq
  unfold Module.advance at step
  split at step <;> rename_i at_stage
  · rw [at_stage] at registered wq
    obtain ⟨idle, off⟩ := inv.handler_idle (by rw [at_stage]; rfl)
    cases step
    cases granted with
    | true => exact inv.goto at_stage rfl (fun _ => rfl) wq (by decide) (absurd · (by decide))
    | false => exact .leave idle off
  · rw [at_stage] at registered wq
    cases step
    cases granted with
    | true =>
        exact inv.goto at_stage registered inv.handler rfl (by decide) (absurd · (by decide))
    | false =>
        exact inv.goto at_stage registered inv.handler wq (by decide) (absurd · (by decide))
  · obtain ⟨idle, eq⟩ := Option.ite_none_right_eq_some.mp step
    cases eq
    exact .leave idle rfl
  · cases step
    exact inv.allocWork at_stage granted
  · cases step
    exact inv.initWork at_stage
  · rw [at_stage] at registered wq
    cases step
    exact inv.goto at_stage registered inv.handler wq (by decide) (absurd · (by decide))
  · rw [at_stage] at registered wq
    obtain ⟨-, eq⟩ := Option.ite_none_right_eq_some.mp step
    cases eq
    exact inv.goto at_stage registered inv.handler wq (by decide) (absurd · (by decide))
  · rw [at_stage] at registered wq
    cases step
    exact inv.goto at_stage registered inv.handler rfl (by decide) (absurd · (by decide))
  · rw [at_stage] at registered wq
    obtain ⟨⟨first, second⟩, eq⟩ := Option.ite_none_right_eq_some.mp step
    cases eq
    refine inv.goto at_stage registered inv.handler rfl (by decide)
      fun _ k w => inv.idle_of_drained ?_
    cases k with
    | work1 => exact first
    | work2 => exact second
  · rw [at_stage] at registered wq
    cases step
    exact inv.goto at_stage registered inv.handler rfl (by decide)
      fun _ => inv.idle (by rw [at_stage]; exact .inl rfl)
  · rw [at_stage] at registered wq
    obtain ⟨idle, eq⟩ := Option.ite_none_right_eq_some.mp step
    cases eq
    exact inv.goto at_stage rfl (fun other => absurd idle other) wq
      (by decide) fun _ => inv.idle (by rw [at_stage]; exact .inr rfl)
  · cases step
    exact inv.kfree at_stage
  · obtain ⟨idle, off⟩ := inv.handler_idle (by rw [at_stage]; rfl)
    cases step
    exact .leave idle off
  · cases step
  · cases step

theorem Inv.step (inv : Inv s) (clear : Clear s event) (step : s.step event = some t) : Inv t := by
  have registered := inv.registered
  have wq := inv.wq
  cases event with
  | run granted => exact inv.advance step
  | handle => exact inv.handle clear step
  | start k => exact inv.start_item step
  | finish k => exact inv.finish_item step
  | load =>
      obtain ⟨at_stage, eq⟩ := Option.ite_none_right_eq_some.mp step
      rw [at_stage] at registered wq
      cases eq
      exact inv.goto at_stage registered inv.handler wq (by decide) (absurd · (by decide))
  | unload =>
      obtain ⟨at_stage, eq⟩ := Option.ite_none_right_eq_some.mp step
      rw [at_stage] at registered wq
      cases eq
      exact inv.goto at_stage registered inv.handler wq (by decide) (absurd · (by decide))
  | interrupt =>
      obtain ⟨ready, eq⟩ := Option.ite_none_right_eq_some.mp step
      cases eq
      exact ⟨inv.registered, fun _ => ready.1, nofun, inv.wq, inv.item, inv.idle⟩

/-- All is sound exactly when no call of `queue_work` falls into one of the two gaps. -/
theorem sound_iff (events : List Event) :
    lifecycle.Always (fun s event _ _ => Sound s event) .unloaded events ↔
      lifecycle.Before Clear .unloaded events := by
  apply Component.always_iff_before Inv.start
  · exact fun inv _ => sound_iff_clear inv
  · intro s event inv stuck handles k calls
    subst handles
    have steps : s.handle = some { s.queueWork k with handler := .after k } := by
      rw [Module.handle, calls]
    cases steps.symm.trans (Component.silent_step_none.mp stuck)
  · intro s event t r inv clear step
    exact inv.step clear (Component.silent_step.mp step)

theorem sound_fails : ¬ lifecycle.Always (fun s event _ _ => Sound s event) .unloaded
    [.load, .run true, .run true, .run true, .interrupt, .handle, .handle] := by
  intro always
  obtain ⟨-, always⟩ := always _ _ rfl
  obtain ⟨-, always⟩ := always _ _ rfl
  obtain ⟨-, always⟩ := always _ _ rfl
  obtain ⟨-, always⟩ := always _ _ rfl
  obtain ⟨-, always⟩ := always _ _ rfl
  obtain ⟨-, always⟩ := always _ _ rfl
  obtain ⟨sound, -⟩ := always _ _ rfl
  obtain ⟨-, w, work⟩ := sound.calls rfl .work1 rfl
  cases work

/-! ## An item that is queued while the queue drains -/

structure Lost (s : Module) (k : Slot) : Prop where
  item : ∃ w id data, s.item k = some ⟨.lost w, id, data⟩ ∧ w.Pending
  stage : s.stage.Ending ∨ s.stage = .kfree .work1 ∨ s.stage = .kfree k

theorem Lost.congr (lost : Lost s k) (item : t.item k = s.item k)
    (stage : t.stage.Ending ∨ t.stage = .kfree .work1 ∨ t.stage = .kfree k) : Lost t k := by
  obtain ⟨w, id, data, there, pending⟩ := lost.item
  exact ⟨⟨w, id, data, item.trans there, pending⟩, stage⟩

theorem Lost.item_queueWork (lost : Lost s k) (j : Slot) : (s.queueWork j).item k = s.item k := by
  obtain ⟨w, id, data, item, -⟩ := lost.item
  unfold Module.queueWork
  split
  · rename_i there
    refine set_other ?_
    rintro rfl
    cases item.symm.trans there
  · rfl

theorem Lost.start (lost : Lost s k) {j : Slot} (step : s.start j = some t) : Lost t k := by
  obtain ⟨w, id, data, item, -⟩ := lost.item
  unfold Module.start at step
  split at step
  · rename_i there
    obtain ⟨w', -, rfl⟩ := Option.map_eq_some_iff.mp step
    refine lost.congr (set_other ?_) lost.stage
    rintro rfl
    cases item.symm.trans there
  · cases step

theorem pending_finish (pending : w.Pending) (step : w.finish = some w') : w'.Pending := by
  unfold Work.finish at step
  split at step
  · cases step
    exact pending
  · cases step

theorem Lost.finish (lost : Lost s k) {j : Slot} (step : s.finish j = some t) : Lost t k := by
  obtain ⟨w, id, data, item, pending⟩ := lost.item
  unfold Module.finish at step
  split at step
  · rename_i there
    obtain ⟨w', -, rfl⟩ := Option.map_eq_some_iff.mp step
    refine lost.congr (set_other ?_) lost.stage
    rintro rfl
    cases item.symm.trans there
  · rename_i v id' data' there
    obtain ⟨v', finishes, rfl⟩ := Option.map_eq_some_iff.mp step
    rcases eq_or_ne k j with rfl | other
    · cases item.symm.trans there
      exact ⟨⟨v', id, data, set_self, pending_finish pending finishes⟩, lost.stage⟩
    · exact lost.congr (set_other other) lost.stage
  · cases step

theorem Lost.advance (lost : Lost s k) (granted : Bool) (step : s.advance granted = some t) :
    Lost t k ∨ s.stage = .kfree k := by
  rcases lost.stage with (now | now | now) | now | now
  all_goals rw [Module.advance, now] at step
  · obtain ⟨-, eq⟩ := Option.ite_none_right_eq_some.mp step
    cases eq
    exact .inl (lost.congr rfl (.inl (.inr (.inl rfl))))
  · cases step
    exact .inl (lost.congr rfl (.inl (.inr (.inr rfl))))
  · obtain ⟨-, eq⟩ := Option.ite_none_right_eq_some.mp step
    cases eq
    exact .inl (lost.congr rfl (.inr (.inl rfl)))
  · cases k with
    | work1 => exact .inr now
    | work2 =>
        cases step
        have kept : (s.kfree .work1).item .work2 = s.item .work2 := set_other (by decide)
        exact .inl (lost.congr kept (.inr (.inr rfl)))
  · exact .inr now

theorem Lost.handle (lost : Lost s k) (step : s.handle = some t) : Lost t k := by
  unfold Module.handle at step
  split at step
  · cases step
  · cases step
    exact lost.congr rfl lost.stage
  · rename_i j calls
    cases step
    refine lost.congr (lost.item_queueWork j) ?_
    have stage : (s.queueWork j).stage = s.stage := by
      unfold Module.queueWork
      split <;> rfl
    rw [show ({ s.queueWork j with handler := .after j } : Module).stage = _ from stage]
    exact lost.stage

theorem Lost.step (lost : Lost s k) (step : s.step event = some t) :
    Lost t k ∨ (s.stage = .kfree k ∧ ∃ granted, event = .run granted) := by
  have stage := lost.stage
  cases event with
  | load =>
      obtain ⟨now, -⟩ := Option.ite_none_right_eq_some.mp step
      rw [now] at stage
      exact absurd stage (by cases k <;> decide)
  | unload =>
      obtain ⟨now, -⟩ := Option.ite_none_right_eq_some.mp step
      rw [now] at stage
      exact absurd stage (by cases k <;> decide)
  | interrupt =>
      obtain ⟨-, eq⟩ := Option.ite_none_right_eq_some.mp step
      cases eq
      exact .inl (lost.congr rfl stage)
  | start j => exact .inl (lost.start step)
  | finish j => exact .inl (lost.finish step)
  | handle => exact .inl (lost.handle step)
  | run granted => exact (lost.advance granted step).imp_right fun frees => ⟨frees, granted, rfl⟩

def FreedPending (s : Module) (k : Slot) (events : List Event) : Prop :=
  ∃ before granted after rs u, events = before ++ .run granted :: after ∧
    lifecycle.exec s before = some (u, rs) ∧ u.stage = .kfree k ∧
    ∃ w, u.work k = some w ∧ w.Pending

theorem Lost.run {events : List Event} {rs : List Unit} (lost : Lost s k)
    (run : lifecycle.exec s events = some (t, rs)) : Lost t k ∨ FreedPending s k events := by
  induction events generalizing s rs with
  | nil =>
      cases Option.some.inj run
      exact .inl lost
  | cons event events ih =>
      obtain ⟨u, r, qs, first, rest, -⟩ := Component.exec_eq_some.mp run
      rcases lost.step (Component.silent_step.mp first) with next | ⟨frees, granted, rfl⟩
      · refine (ih next rest).imp_right ?_
        rintro ⟨before, granted, after, rs', v, rfl, exec, frees⟩
        exact ⟨event :: before, granted, after, _, v, rfl, Component.exec_cons first exec, frees⟩
      · obtain ⟨w, id, data, item, pending⟩ := lost.item
        exact .inr ⟨[], granted, events, _, s, rfl, rfl, frees, w, work_of_item item, pending⟩

end OsUnix.WorkQueue
