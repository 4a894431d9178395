import OsUnix.BoundedBuffer.Model
import OsUnix.Concurrency.Counting

/-!
# The invariant of the bounded buffer

Semaphore accounting keeps the processes out of each other's sections; inside a section the loaded
positions are current, so the positions count the stored and the loaded items.
-/

namespace OsUnix.BoundedBuffer
open Concurrency

/-! ## The steps -/

inductive Move (g : Shared) : Local → Shared → Local → Action → Prop
  | producerEnter {i count output} (more : i < count) :
      Move g (.producer .top i count output) g (.producer .start i count output) .enter
  | producerExit {i count output} (last : ¬ i < count) :
      Move g (.producer .top i count output) g (.producer .exited i count output) .exit
  | producerStart {i count output} (empty : 0 < g.sems .empty) (binary : 0 < g.sems .binary) :
      Move g (.producer .start i count output)
        { g with sems := lower (lower g.sems .empty) .binary }
        (.producer .index i count output) .start
  | index {i count output} :
      Move g (.producer .index i count output) g
        (.producer (.item (g.mem shmPosProducer)) i count output)
        (.load shmPosProducer (g.mem shmPosProducer))
  | item {pos i count output} :
      Move g (.producer (.item pos) i count output) (g.write (shmBuffer + pos) (toChar output))
        (.producer .printPos i count output) (.store (shmBuffer + pos) (toChar output))
  | producerPrintPos {i count output} :
      Move g (.producer .printPos i count output) g (.producer .printIndex i count output)
        (.load shmPosProducer (g.mem shmPosProducer))
  | producerPrintIndex {i count output} :
      Move g (.producer .printIndex i count output) g
        (.producer (.printItem (g.mem shmPosProducer)) i count output)
        (.load shmPosProducer (g.mem shmPosProducer))
  | producerPrintItem {pos i count output} :
      Move g (.producer (.printItem pos) i count output) g (.producer .incLoad i count output)
        (.load (shmBuffer + pos) (g.mem (shmBuffer + pos)))
  | producerIncLoad {i count output} :
      Move g (.producer .incLoad i count output) g
        (.producer (.incStore (g.mem shmPosProducer)) i count (output + 1))
        (.load shmPosProducer (g.mem shmPosProducer))
  | producerIncStore {tmp i count output} :
      Move g (.producer (.incStore tmp) i count output) (g.write shmPosProducer (tmp + 1))
        (.producer .stop i count output) (.store shmPosProducer (tmp + 1))
  | producerStop {i count output} :
      Move g (.producer .stop i count output)
        { g with sems := raise (raise g.sems .binary) .full }
        (.producer .top (i + 1) count output) .stop
  | consumerEnter {i count} (more : i < count) :
      Move g (.consumer .top i count) g (.consumer .start i count) .enter
  | consumerExit {i count} (last : ¬ i < count) :
      Move g (.consumer .top i count) g (.consumer .exited i count) .exit
  | consumerStart {i count} (full : 0 < g.sems .full) (binary : 0 < g.sems .binary) :
      Move g (.consumer .start i count)
        { g with sems := lower (lower g.sems .full) .binary }
        (.consumer .printPos i count) .start
  | consumerPrintPos {i count} :
      Move g (.consumer .printPos i count) g (.consumer .printIndex i count)
        (.load shmPosConsumer (g.mem shmPosConsumer))
  | consumerPrintIndex {i count} :
      Move g (.consumer .printIndex i count) g
        (.consumer (.printItem (g.mem shmPosConsumer)) i count)
        (.load shmPosConsumer (g.mem shmPosConsumer))
  | consumerPrintItem {pos i count} :
      Move g (.consumer (.printItem pos) i count) g (.consumer .incLoad i count)
        (.load (shmBuffer + pos) (g.mem (shmBuffer + pos)))
  | consumerIncLoad {i count} :
      Move g (.consumer .incLoad i count) g (.consumer (.incStore (g.mem shmPosConsumer)) i count)
        (.load shmPosConsumer (g.mem shmPosConsumer))
  | consumerIncStore {tmp i count} :
      Move g (.consumer (.incStore tmp) i count) (g.write shmPosConsumer (tmp + 1))
        (.consumer .stop i count) (.store shmPosConsumer (tmp + 1))
  | consumerStop {i count} :
      Move g (.consumer .stop i count)
        { g with sems := raise (raise g.sems .binary) .empty }
        (.consumer .top (i + 1) count) .stop

variable {c : Setup} {s t : State c} {k : c.Process}

theorem step_iff {g g' : Shared} {l l' : Local} {a : Action} :
    c.system.step k g l = some (g', l', a) ↔ Move g l g' l' a := by
  constructor
  · intro h
    cases l with
    | producer pc i count output =>
        cases pc <;>
          simp only [Setup.system, producer, semop_producerStart, semop_producerStop,
            Option.map_some, Option.map_if, Option.some.injEq, Prod.mk.injEq,
            Option.ite_none_right_eq_some, reduceCtorEq] at h
        case top =>
          split at h <;> simp only [Option.some.injEq, Prod.mk.injEq] at h <;>
            obtain ⟨rfl, rfl, rfl⟩ := h
          · rename_i more; exact .producerEnter more
          · rename_i last; exact .producerExit last
        case start =>
          obtain ⟨⟨empty, binary⟩, rfl, rfl, rfl⟩ := h
          exact .producerStart empty binary
        all_goals obtain ⟨rfl, rfl, rfl⟩ := h; constructor
    | consumer pc i count =>
        cases pc <;>
          simp only [Setup.system, consumer, semop_consumerStart, semop_consumerStop,
            Option.map_some, Option.map_if, Option.some.injEq, Prod.mk.injEq,
            Option.ite_none_right_eq_some, reduceCtorEq] at h
        case top =>
          split at h <;> simp only [Option.some.injEq, Prod.mk.injEq] at h <;>
            obtain ⟨rfl, rfl, rfl⟩ := h
          · rename_i more; exact .consumerEnter more
          · rename_i last; exact .consumerExit last
        case start =>
          obtain ⟨⟨full, binary⟩, rfl, rfl, rfl⟩ := h
          exact .consumerStart full binary
        all_goals obtain ⟨rfl, rfl, rfl⟩ := h; constructor
  · intro move
    cases move with
    | producerEnter more => simp [Setup.system, producer, more]
    | producerExit last => simp [Setup.system, producer, last]
    | producerStart empty binary =>
        simp [Setup.system, producer, semop_producerStart, empty, binary]
    | producerStop => simp [Setup.system, producer, semop_producerStop]
    | consumerEnter more => simp [Setup.system, consumer, more]
    | consumerExit last => simp [Setup.system, consumer, last]
    | consumerStart full binary =>
        simp [Setup.system, consumer, semop_consumerStart, full, binary]
    | consumerStop => simp [Setup.system, consumer, semop_consumerStop]
    | _ => rfl

theorem next_cases (h : c.system.next s k = some t) :
    ∃ g l a, Move s.shared (s.locals k) g l a ∧ t = s.move k g l a := by
  obtain ⟨g, l, a, moves, rfl⟩ := System.next_eq_some.mp h
  exact ⟨g, l, a, step_iff.mp moves, rfl⟩

/-! ## Positions in the code -/

def Local.inside : Local → Bool
  | .producer .top _ _ _ | .producer .start _ _ _ | .producer .exited _ _ _ => false
  | .consumer .top _ _ | .consumer .start _ _ | .consumer .exited _ _ => false
  | _ => true

def Local.filling : Local → Bool
  | .producer .index _ _ _ | .producer (.item _) _ _ _ => true
  | _ => false

def Local.filled : Local → Bool
  | .producer pc i count output =>
      Local.inside (.producer pc i count output) && !Local.filling (.producer pc i count output)
  | .consumer _ _ _ => false

def Local.taking : Local → Bool
  | .consumer .printPos _ _ | .consumer .printIndex _ _ | .consumer (.printItem _) _ _ => true
  | _ => false

def Local.taken : Local → Bool
  | .producer _ _ _ _ => false
  | .consumer pc i count =>
      Local.inside (.consumer pc i count) && !Local.taking (.consumer pc i count)

def Local.filledAhead : Local → Bool
  | .producer .stop _ _ _ => false
  | l => l.filled

def Local.takenAhead : Local → Bool
  | .consumer .stop _ _ => false
  | l => l.taken

theorem filling_inside (l : Local) (h : l.filling = true) : l.inside = true := by
  cases l with
  | producer pc i count output => cases pc <;> simp_all [Local.filling, Local.inside]
  | consumer pc i count => simp [Local.filling] at h

theorem filled_inside (l : Local) (h : l.filled = true) : l.inside = true := by
  cases l <;> simp_all [Local.filled]

theorem taking_inside (l : Local) (h : l.taking = true) : l.inside = true := by
  cases l with
  | producer pc i count output => simp [Local.taking] at h
  | consumer pc i count => cases pc <;> simp_all [Local.taking, Local.inside]

theorem taken_inside (l : Local) (h : l.taken = true) : l.inside = true := by
  cases l <;> simp_all [Local.taken]

theorem filledAhead_inside (l : Local) (h : l.filledAhead = true) : l.inside = true := by
  cases l with
  | producer pc i count output =>
      cases pc <;> simp_all [Local.filledAhead, Local.filled, Local.inside]
  | consumer pc i count => simp [Local.filledAhead, Local.filled] at h

theorem takenAhead_inside (l : Local) (h : l.takenAhead = true) : l.inside = true := by
  cases l with
  | producer pc i count output => simp [Local.takenAhead, Local.taken] at h
  | consumer pc i count =>
      cases pc <;> simp_all [Local.takenAhead, Local.taken, Local.inside]

theorem count_start {q : Local → Bool} (producer : ∀ count, q (.producer .top 0 count 97) = false)
    (consumer : ∀ count, q (.consumer .top 0 count) = false) : count q c.system.locals₀ = 0 :=
  count_eq_zero_iff.mpr (by
    rintro (k | k)
    · exact producer _
    · exact consumer _)

/-! ## Mutual exclusion -/

theorem Move.sems_inside {g g' : Shared} {l l' : Local} {a : Action} (move : Move g l g' l' a) :
    g'.sems .binary + l'.inside.toNat = g.sems .binary + l.inside.toNat ∧
      g'.sems .empty + g'.sems .full + l'.inside.toNat =
        g.sems .empty + g.sems .full + l.inside.toNat := by
  cases move with
  | producerStart empty binary => simp [Local.inside]; omega
  | consumerStart full binary => simp [Local.inside]; omega
  | producerStop => simp [Local.inside]; omega
  | consumerStop => simp [Local.inside]; omega
  | _ => exact ⟨rfl, rfl⟩

theorem binary_accounting (h : c.system.Reachable s) :
    s.shared.sems .binary + count Local.inside s.locals = 1 := by
  have counted := h.counted (c := fun s => 1 - (s.shared.sems .binary : Int)) (p := Local.inside)
    (by rw [count_start (fun _ => rfl) fun _ => rfl]; rfl)
    (fun {s k g l a} _ step => by
      have semaphores := (step_iff.mp step).sems_inside
      simp only [Config.move_shared]
      omega)
  omega

theorem inside_unique (h : c.system.Reachable s) {j k : c.Process}
    (hj : (s.locals j).inside = true) (hk : (s.locals k).inside = true) : j = k := by
  have accounting := binary_accounting h
  have at_most_one : count Local.inside s.locals ≤ 1 := by omega
  exact count_le_one_iff.mp at_most_one j k hj hk

/-! ## Loaded positions are current -/

def Local.Current (mem : Int → Int) : Local → Prop
  | .producer (.item pos) _ _ _ | .producer (.printItem pos) _ _ _
  | .producer (.incStore pos) _ _ _ => pos = mem shmPosProducer
  | .consumer (.printItem pos) _ _ | .consumer (.incStore pos) _ _ => pos = mem shmPosConsumer
  | _ => True

theorem current_of_outside {l : Local} {mem : Int → Int} (outside : l.inside = false) :
    l.Current mem := by
  cases l with
  | producer pc i count output => cases pc <;> simp_all [Local.inside, Local.Current]
  | consumer pc i count => cases pc <;> simp_all [Local.inside, Local.Current]

structure Sound (s : State c) : Prop where
  current : ∀ k, (s.locals k).Current s.shared.mem
  posProducer : 0 ≤ s.shared.mem shmPosProducer
  posConsumer : 0 ≤ s.shared.mem shmPosConsumer

theorem Move.sound {g g' : Shared} {l l' : Local} {a : Action} (move : Move g l g' l' a)
    (current : l.Current g.mem) (posProducer : 0 ≤ g.mem shmPosProducer)
    (posConsumer : 0 ≤ g.mem shmPosConsumer) :
    l'.Current g'.mem ∧ 0 ≤ g'.mem shmPosProducer ∧ 0 ≤ g'.mem shmPosConsumer ∧
      (g'.mem = g.mem ∨ l.inside = true) := by
  cases move with
  | item =>
      simp only [Local.Current] at current
      subst current
      rw [Shared.write_of_ne (posProducer_ne_item posProducer),
        Shared.write_of_ne (posConsumer_ne_item posProducer)]
      exact ⟨trivial, posProducer, posConsumer, Or.inr rfl⟩
  | producerIncStore =>
      simp only [Local.Current] at current
      subst current
      refine ⟨trivial, ?_, by simpa using posConsumer, Or.inr rfl⟩
      rw [Shared.write_self]
      omega
  | consumerIncStore =>
      simp only [Local.Current] at current
      subst current
      refine ⟨trivial, by simpa using posProducer, ?_, Or.inr rfl⟩
      rw [Shared.write_self]
      omega
  | _ => exact ⟨by trivial, posProducer, posConsumer, Or.inl rfl⟩

theorem init_mem (cell : Int) : c.system.init.shared.mem cell = 0 := by
  simp only [System.init_shared, Setup.system, mainStores, List.foldl, Shared.write,
    Function.update_apply]
  split_ifs <;> rfl

theorem sound (h : c.system.Reachable s) : Sound s := by
  apply h.preserved (I := Sound)
  · exact ⟨by rintro (k | k) <;> trivial, (init_mem _).ge, (init_mem _).ge⟩
  · intro s k t reach inv next
    obtain ⟨g, l, a, move, rfl⟩ := next_cases next
    obtain ⟨current, posProducer, posConsumer, mem⟩ :=
      move.sound (inv.current k) inv.posProducer inv.posConsumer
    refine ⟨fun j => ?_, posProducer, posConsumer⟩
    by_cases own : j = k
    · subst own
      simpa using current
    · simp only [Config.move_locals, ne_eq, own, not_false_eq_true, Function.update_of_ne,
        Config.move_shared]
      cases mem with
      | inl same =>
          rw [same]
          exact inv.current j
      | inr inside =>
          -- the other processes are outside, where nothing is remembered
          apply current_of_outside
          rw [← Bool.not_eq_true]
          exact fun both => own (inside_unique reach both inside)

theorem current_at (h : c.system.Reachable s) {l : Local} (at_k : s.locals k = l) :
    l.Current s.shared.mem := by
  rw [← at_k]
  exact (sound h).current k

def Local.consuming : Local → Bool
  | .producer _ _ _ _ => false
  | .consumer _ _ _ => true

theorem consuming_eq (h : c.system.Reachable s) (k : c.Process) :
    (s.locals k).consuming = k.isRight := by
  apply h.each (Q := fun k l => l.consuming = k.isRight)
  · rintro (k | k) <;> rfl
  · intro k g l g' l' a step same
    have move := step_iff.mp step
    cases move <;> exact same

/-! ## What a step adds to the histories -/

def Local.storing : Local → Bool
  | .producer (.item _) _ _ _ => true
  | _ => false

def Local.loading : Local → Bool
  | .consumer (.printItem _) _ _ => true
  | _ => false

def Local.producerMoving : Local → Bool
  | .producer (.incStore _) _ _ _ => true
  | _ => false

def Local.consumerMoving : Local → Bool
  | .consumer (.incStore _) _ _ => true
  | _ => false

structure Adds (s : State c) (k : c.Process) (g : Shared) (a : Action) : Prop where
  written : (written (s.trace ++ [(k, a)])).length =
    (written s.trace).length + (s.locals k).storing.toNat
  consumed : (consumed (s.trace ++ [(k, a)])).length =
    (consumed s.trace).length + (s.locals k).loading.toNat
  posProducer : g.mem shmPosProducer =
    s.shared.mem shmPosProducer + (s.locals k).producerMoving.toNat
  posConsumer : g.mem shmPosConsumer =
    s.shared.mem shmPosConsumer + (s.locals k).consumerMoving.toNat

theorem adds (h : c.system.Reachable s) {g : Shared} {l : Local} {a : Action}
    (move : Move s.shared (s.locals k) g l a) : Adds s k g a := by
  obtain ⟨current, posProducer, posConsumer⟩ := sound h
  have role := consuming_eq h k
  have item := current k
  -- only the two accesses to an item and the two stores of a position add anything
  have nothing (no_store : writtenItem a = none) (no_load : loadedItem a = none)
      (same : g.mem = s.shared.mem) (storing : (s.locals k).storing = false)
      (loading : (s.locals k).loading = false) (still : (s.locals k).producerMoving = false)
      (still' : (s.locals k).consumerMoving = false) : Adds s k g a :=
    ⟨by simp [no_store, storing], by simp [no_load, loading], by simp [same, still],
      by simp [same, still']⟩
  generalize before : s.locals k = l₀ at move role item nothing
  cases move with
  | item =>
      obtain rfl := item
      constructor
      · simp [before, Local.storing, writtenItem_item posProducer]
      · simp [before, Local.loading, loadedItem]
      · simp [before, Local.producerMoving, Shared.write_of_ne (posProducer_ne_item posProducer)]
      · simp [before, Local.consumerMoving, Shared.write_of_ne (posConsumer_ne_item posProducer)]
  | producerIncStore =>
      obtain rfl := item
      constructor
      · simp [before, Local.storing, writtenItem]
      · simp [before, Local.loading, loadedItem]
      · simp [before, Local.producerMoving]
      · simp [before, Local.consumerMoving]
  | consumerPrintItem =>
      obtain rfl := item
      constructor
      · simp [before, Local.storing, writtenItem]
      · simp [before, Local.loading, loadedItem_item posConsumer, ← role, Local.consuming]
      · simp [before, Local.producerMoving]
      · simp [before, Local.consumerMoving]
  | consumerIncStore =>
      obtain rfl := item
      constructor
      · simp [before, Local.storing, writtenItem]
      · simp [before, Local.loading, loadedItem]
      · simp [before, Local.producerMoving]
      · simp [before, Local.consumerMoving]
  | producerPrintItem =>
      -- the producer loads an item too, which no consumer sees
      exact ⟨by simp [before, Local.storing, writtenItem],
        by simp [before, Local.loading, ← role, Local.consuming],
        by simp [before, Local.producerMoving], by simp [before, Local.consumerMoving]⟩
  | _ => exact nothing rfl rfl rfl rfl rfl rfl rfl

/-! ## Accounting -/

theorem posProducer_accounting (h : c.system.Reachable s) :
    s.shared.mem shmPosProducer + count Local.filledAhead s.locals = (written s.trace).length := by
  have counted := h.counted (p := Local.filledAhead)
    (c := fun s => (written s.trace).length - s.shared.mem shmPosProducer)
    (by rw [count_start (fun _ => rfl) fun _ => rfl, init_mem]; rfl)
    (fun {s k g l a} reach step => by
      have move := step_iff.mp step
      obtain ⟨written, -, posProducer, -⟩ := adds reach move
      simp only [Config.move_trace, Config.move_shared, written, posProducer]
      generalize s.locals k = before at move
      cases move <;> simp [Local.storing, Local.producerMoving, Local.filledAhead, Local.filled,
        Local.inside, Local.filling] <;> omega)
  omega

theorem posConsumer_accounting (h : c.system.Reachable s) :
    s.shared.mem shmPosConsumer + count Local.takenAhead s.locals = (consumed s.trace).length := by
  have counted := h.counted (p := Local.takenAhead)
    (c := fun s => (consumed s.trace).length - s.shared.mem shmPosConsumer)
    (by rw [count_start (fun _ => rfl) fun _ => rfl, init_mem]; rfl)
    (fun {s k g l a} reach step => by
      have move := step_iff.mp step
      obtain ⟨-, consumed, -, posConsumer⟩ := adds reach move
      simp only [Config.move_trace, Config.move_shared, consumed, posConsumer]
      generalize s.locals k = before at move
      cases move <;> simp [Local.loading, Local.consumerMoving, Local.takenAhead, Local.taken,
        Local.inside, Local.taking] <;> omega)
  omega

theorem empty_accounting (h : c.system.Reachable s) :
    s.shared.sems .empty + (written s.trace).length + count Local.filling s.locals +
      count Local.taken s.locals = c.n + (consumed s.trace).length := by
  have counted := h.counted (p := fun l => l.filling || l.taken)
    (c := fun s => c.n + (consumed s.trace).length - s.shared.sems .empty -
      (written s.trace).length)
    (by
      rw [count_start (fun _ => rfl) fun _ => rfl]
      simp [Setup.system, mainStores, initialSems, written, consumed])
    (fun {s k g l a} reach step => by
      have move := step_iff.mp step
      obtain ⟨written, consumed, -, -⟩ := adds reach move
      simp only [Config.move_trace, Config.move_shared, written, consumed]
      generalize s.locals k = before at move
      cases move <;> simp [Local.storing, Local.loading, Local.filling, Local.taken, Local.inside,
        Local.taking] <;> omega)
  have apart := count_add Local.filling Local.taken s.locals (by
    rintro (_ | _) ⟨filling, taken⟩ <;> simp_all [Local.filling, Local.taken])
  omega

theorem full_accounting (h : c.system.Reachable s) :
    s.shared.sems .full + (consumed s.trace).length + count Local.filled s.locals +
      count Local.taking s.locals = (written s.trace).length := by
  have counted := h.counted (p := fun l => l.filled || l.taking)
    (c := fun s => (written s.trace).length - s.shared.sems .full - (consumed s.trace).length)
    (by
      rw [count_start (fun _ => rfl) fun _ => rfl]
      simp [Setup.system, mainStores, initialSems, written, consumed])
    (fun {s k g l a} reach step => by
      have move := step_iff.mp step
      obtain ⟨written, consumed, -, -⟩ := adds reach move
      simp only [Config.move_trace, Config.move_shared, written, consumed]
      generalize s.locals k = before at move
      cases move <;> simp [Local.storing, Local.loading, Local.filled, Local.inside, Local.filling,
        Local.taking] <;> omega)
  have apart := count_add Local.filled Local.taking s.locals (by
    rintro (_ | _) ⟨filled, taking⟩ <;> simp_all [Local.filled, Local.taking])
  omega

end OsUnix.BoundedBuffer
