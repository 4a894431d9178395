import OsUnix.Kernel.Resource
import OsUnix.SeqFortune.Model
import Mathlib.Logic.Function.Basic

/-!
# Loading and unloading

`fortune_init` and `fortune_exit` of `6-semestr/lab4/part2/main.c`, one call of the kernel at a
time. The page and the `/proc` entries go by the number of the load that made them.
-/

namespace OsUnix.SeqFortune
open Kernel

def enomem : Int := 12

inductive Entry
  | fortune
  | cookieDir
  | cookieSymlink
deriving DecidableEq, Repr

inductive Stage
  | unloaded
  | vmalloc
  | create
  | mkdir
  | symlink
  | loaded
  | remove (e : Entry)
  | vfree
deriving DecidableEq, Repr

structure Module where
  stage : Stage
  load : Nat
  ret : Int
  str : Option Nat
  pot : Pot
  heap : Heap Nat
  registered : Entry → Option Nat

namespace Module

def unloaded (outside : Memory) : Module where
  stage := .unloaded
  load := 0
  ret := 0
  str := none
  pot := .fresh outside
  heap := .empty
  registered _ := none

def insmod (s : Module) : Module :=
  { s with
    stage := .vmalloc
    load := s.load + 1
    ret := 0
    str := none
    pot := { s.pot with writeIndex := 0, readIndex := 0 } }

def vmalloc (outside : Memory) (s : Module) (granted : Bool) : Module :=
  if granted then
    { s with
      stage := .create
      str := some s.load
      pot := .fresh outside
      heap := s.heap.alloc s.load }
  else { s with stage := .unloaded, ret := -enomem }

def register (s : Module) (e : Entry) (granted : Bool) : Module :=
  if granted then { s with registered := Function.update s.registered e (some s.load) } else s

def create (s : Module) (granted : Bool) : Module :=
  if granted then { s.register .fortune true with stage := .mkdir }
  else { s with stage := .unloaded, ret := -enomem, heap := s.heap.free s.str }

/-- What `proc_mkdir` and `proc_symlink` return is not looked at. -/
def mkdir (s : Module) (granted : Bool) : Module :=
  { s.register .cookieDir granted with stage := .symlink }

def symlink (s : Module) (granted : Bool) : Module :=
  { s.register .cookieSymlink granted with stage := .loaded }

/-- `remove_proc_entry` only warns when there is no such entry. -/
def remove (s : Module) (e : Entry) : Module :=
  { s with
    stage := match e with
      | .fortune => .remove .cookieDir
      | .cookieDir => .remove .cookieSymlink
      | .cookieSymlink => .vfree
    registered := Function.update s.registered e none }

def vfree (s : Module) : Module :=
  { s with stage := .unloaded, heap := s.heap.free s.str }

def advance (outside : Memory) (s : Module) (granted : Bool) : Option Module :=
  match s.stage with
  | .vmalloc => some (s.vmalloc outside granted)
  | .create => some (s.create granted)
  | .mkdir => some (s.mkdir granted)
  | .symlink => some (s.symlink granted)
  | .remove e => some (s.remove e)
  | .vfree => some s.vfree
  | .unloaded | .loaded => none

/-- A call goes to the page of the load that registered the file. Nothing is known of a page that
is not live. -/
def call (outside : Memory) (s : Module) (op : Op) : Option (Module × Option Answer) :=
  match s.registered .fortune with
  | none => none
  | some n =>
      if s.heap.Live n then
        ((component outside).step s.pot op).map fun r => ({ s with pot := r.1 }, some r.2)
      else some (s, none)

end Module

inductive Event
  | load
  | run (granted : Bool)
  | unload
  | call (op : Op)
deriving DecidableEq, Repr

def lifecycle (outside : Memory) : Component Module Event (Option Answer) where
  start := .unloaded outside
  step s
    | .load => if s.stage = .unloaded then some (s.insmod, none) else none
    | .run granted => (s.advance outside granted).map fun t => (t, none)
    | .unload =>
        if s.stage = .loaded then some ({ s with stage := .remove .fortune }, none) else none
    | .call op => s.call outside op

variable {outside : Memory} {s t : Module} {event : Event} {answer : Option Answer} {e : Entry}
  {n : Nat}

inductive Moves (outside : Memory) (s : Module) : Event → Module → Prop
  | load (idle : s.stage = .unloaded) : Moves outside s .load s.insmod
  | vmalloc (granted : Bool) (at_stage : s.stage = .vmalloc) :
      Moves outside s (.run granted) (s.vmalloc outside granted)
  | create (granted : Bool) (at_stage : s.stage = .create) :
      Moves outside s (.run granted) (s.create granted)
  | mkdir (granted : Bool) (at_stage : s.stage = .mkdir) :
      Moves outside s (.run granted) (s.mkdir granted)
  | symlink (granted : Bool) (at_stage : s.stage = .symlink) :
      Moves outside s (.run granted) (s.symlink granted)
  | remove (e : Entry) (granted : Bool) (at_stage : s.stage = .remove e) :
      Moves outside s (.run granted) (s.remove e)
  | vfree (granted : Bool) (at_stage : s.stage = .vfree) : Moves outside s (.run granted) s.vfree
  | unload (at_stage : s.stage = .loaded) :
      Moves outside s .unload { s with stage := .remove .fortune }
  | call (op : Op) (pot : Pot) : Moves outside s (.call op) { s with pot }

theorem moves_of_step (step : (lifecycle outside).step s event = some (t, answer)) :
    Moves outside s event t := by
  cases event with
  | load =>
      obtain ⟨idle, eq⟩ := Option.ite_none_right_eq_some.mp step
      cases eq
      exact .load idle
  | run granted =>
      obtain ⟨u, advance, eq⟩ := Option.map_eq_some_iff.mp step
      cases eq
      unfold Module.advance at advance
      split at advance <;> cases advance
      · exact .vmalloc granted ‹_›
      · exact .create granted ‹_›
      · exact .mkdir granted ‹_›
      · exact .symlink granted ‹_›
      · exact .remove _ granted ‹_›
      · exact .vfree granted ‹_›
  | unload =>
      obtain ⟨loaded, eq⟩ := Option.ite_none_right_eq_some.mp step
      cases eq
      exact .unload loaded
  | call op =>
      have step : s.call outside op = some (t, answer) := step
      unfold Module.call at step
      split at step
      · cases step
      · split at step
        · obtain ⟨r, -, eq⟩ := Option.map_eq_some_iff.mp step
          cases eq
          exact .call op _
        · cases step
          exact .call op s.pot

def Stage.holds : Stage → Bool
  | .unloaded | .vmalloc => false
  | _ => true

def Stage.mayKeep : Stage → Entry → Bool
  | .unloaded, _ | .vmalloc, _ | .create, _ | .vfree, _ => false
  | .mkdir, e => e == .fortune
  | .symlink, e => e != .cookieSymlink
  | .loaded, _ | .remove .fortune, _ => true
  | .remove .cookieDir, e => e != .fortune
  | .remove .cookieSymlink, e => e == .cookieSymlink

structure Tidy (s : Module) : Prop where
  page : s.heap.Accounts { n | s.stage.holds = true ∧ n = s.load }
  str : s.stage.holds = true → s.str = some s.load
  fresh : ∀ n ∈ s.heap.allocated, n ≤ s.load ∧ (s.stage = .vmalloc → n ≠ s.load)
  entries : ∀ e n, s.registered e = some n → s.stage.mayKeep e = true ∧ n = s.load

theorem Tidy.keep (tidy : Tidy s) (heap : t.heap = s.heap) (load : t.load = s.load)
    (str : t.str = s.str) (holds : t.stage.holds = s.stage.holds) (other : t.stage ≠ .vmalloc)
    (entries : ∀ e n, t.registered e = some n → t.stage.mayKeep e = true ∧ n = s.load) :
    Tidy t where
  page := by
    rw [heap, holds, load]
    exact tidy.page
  str held := by
    rw [str, load]
    exact tidy.str (holds ▸ held)
  fresh n mem := by
    rw [heap] at mem
    rw [load]
    exact ⟨(tidy.fresh n mem).1, fun at_vmalloc => absurd at_vmalloc other⟩
  entries e n kept := load ▸ entries e n kept

theorem Tidy.freed (tidy : Tidy s) (holds : s.stage.holds = true)
    (none : ∀ e, s.stage.mayKeep e = false) (ret : Int) :
    Tidy { s with stage := .unloaded, ret, heap := s.heap.free s.str } where
  page := by
    rw [tidy.str holds]
    refine (tidy.page.free ⟨holds, rfl⟩).congr fun n => ?_
    constructor
    · rintro ⟨⟨⟩, -⟩
    · rintro ⟨⟨-, rfl⟩, other⟩
      exact absurd rfl other
  str := nofun
  fresh n mem := by
    rw [tidy.str holds] at mem
    exact ⟨(tidy.fresh n mem).1, nofun⟩
  entries e n kept := absurd (tidy.entries e n kept).1 (by rw [none]; exact Bool.false_ne_true)

theorem Tidy.register (tidy : Tidy s) (granted : Bool) {stage : Stage}
    (holds : stage.holds = s.stage.holds) (other : stage ≠ .vmalloc)
    (kept : ∀ e', stage.mayKeep e' = true ↔ e' = e ∨ s.stage.mayKeep e' = true) :
    Tidy { s.register e granted with stage } := by
  rw [Module.register]
  cases granted with
  | true =>
      refine tidy.keep rfl rfl rfl holds other fun e' n eq => ?_
      have eq : Function.update s.registered e (some s.load) e' = some n := eq
      by_cases same : e' = e
      · subst same
        rw [Function.update_self] at eq
        exact ⟨(kept e').mpr (.inl rfl), (Option.some.inj eq).symm⟩
      · rw [Function.update_of_ne same] at eq
        exact (tidy.entries e' n eq).imp_left fun old => (kept e').mpr (.inr old)
  | false =>
      exact tidy.keep rfl rfl rfl holds other fun e' n eq =>
        (tidy.entries e' n eq).imp_left fun old => (kept e').mpr (.inr old)

theorem Tidy.remove (tidy : Tidy s) (at_stage : s.stage = .remove e) : Tidy (s.remove e) := by
  refine tidy.keep rfl rfl rfl ?_ ?_ fun e' n eq => ?_
  · rw [at_stage]
    cases e <;> rfl
  · cases e <;> exact nofun
  · have eq : Function.update s.registered e none e' = some n := eq
    have other : e' ≠ e := by
      rintro rfl
      rw [Function.update_self] at eq
      cases eq
    rw [Function.update_of_ne other] at eq
    obtain ⟨before, same⟩ := tidy.entries e' n eq
    refine ⟨?_, same⟩
    rw [at_stage] at before
    cases e <;> cases e' <;> first | exact absurd rfl other | exact before

theorem Tidy.vmalloc (tidy : Tidy s) (at_stage : s.stage = .vmalloc) (granted : Bool) :
    Tidy (s.vmalloc outside granted) := by
  have entries (e : Entry) (n : Nat) (eq : s.registered e = some n) : False := by
    have kept := (tidy.entries e n eq).1
    rw [at_stage] at kept
    cases kept
  rw [Module.vmalloc]
  cases granted with
  | true =>
      have new : s.load ∉ s.heap.allocated := fun mem => (tidy.fresh _ mem).2 at_stage rfl
      refine ⟨(tidy.page.alloc new).congr fun n => ?_, fun _ => rfl, fun n mem => ⟨?_, nofun⟩,
        fun e n eq => (entries e n eq).elim⟩
      · rw [Set.mem_insert_iff]
        exact ⟨fun own => .inl own.2, fun
          | .inl own => ⟨rfl, own⟩
          | .inr old => absurd old.1 (by rw [at_stage]; exact nofun)⟩
      · rcases List.mem_cons.mp mem with rfl | old
        · exact Nat.le_refl _
        · exact (tidy.fresh n old).1
  | false =>
      exact tidy.keep rfl rfl rfl (by rw [at_stage]; rfl) nofun fun e n eq =>
        (entries e n eq).elim

theorem Tidy.step (tidy : Tidy s) (moves : Moves outside s event t) : Tidy t := by
  cases moves with
  | load idle =>
      have entries (e : Entry) (n : Nat) (eq : s.registered e = some n) : False := by
        have kept := (tidy.entries e n eq).1
        rw [idle] at kept
        cases kept
      refine ⟨tidy.page.congr fun n => ?_, nofun, fun n mem => ?_,
        fun e n eq => (entries e n eq).elim⟩
      · show s.insmod.stage.holds = true ∧ _ ↔ s.stage.holds = true ∧ _
        rw [idle]
        exact iff_of_false (fun held => nomatch held.1) fun held => nomatch held.1
      · have le := (tidy.fresh n mem).1
        exact ⟨Nat.le_succ_of_le le, fun _ => Nat.ne_of_lt (Nat.lt_succ_of_le le)⟩
  | vmalloc granted at_stage => exact tidy.vmalloc at_stage granted
  | create granted at_stage =>
      rw [Module.create]
      cases granted with
      | true =>
          refine tidy.register true (by rw [at_stage]; rfl) nofun fun e => ?_
          rw [at_stage]
          cases e <;> decide
      | false =>
          refine tidy.freed (by rw [at_stage]; rfl) (fun e => ?_) _
          rw [at_stage]
          rfl
  | mkdir granted at_stage =>
      refine tidy.register granted (by rw [at_stage]; rfl) nofun fun e => ?_
      rw [at_stage]
      cases e <;> decide
  | symlink granted at_stage =>
      refine tidy.register granted (by rw [at_stage]; rfl) nofun fun e => ?_
      rw [at_stage]
      cases e <;> decide
  | remove e granted at_stage => exact tidy.remove at_stage
  | vfree granted at_stage =>
      refine tidy.freed (by rw [at_stage]; rfl) (fun e => ?_) _
      rw [at_stage]
      rfl
  | unload at_stage =>
      refine tidy.keep rfl rfl rfl (by rw [at_stage]; rfl) nofun fun e n eq => ?_
      exact (tidy.entries e n eq).imp_left fun _ => rfl
  | call op pot => exact ⟨tidy.page, tidy.str, tidy.fresh, tidy.entries⟩

theorem tidy (h : (lifecycle outside).Reachable s) : Tidy s := by
  refine h.invariant ⟨Heap.accounts_empty.congr fun n => ?_, nofun, List.forall_mem_nil _, nofun⟩
    fun tidy step => tidy.step (moves_of_step step)
  exact iff_of_false (fun held => nomatch held.1) (Set.notMem_empty n)

/-- Whatever the kernel refuses, the file is there only while its page is live, no page is freed
twice, and a module that is not loaded has left neither a page nor an entry behind. -/
theorem page_outlives_file (h : (lifecycle outside).Reachable s) :
    (∀ n, s.registered .fortune = some n → s.heap.Live n) ∧
    (∀ n, s.heap.freed.count n ≤ s.heap.allocated.count n) ∧
    (s.stage = .unloaded → (∀ e, s.registered e = none) ∧
      ∀ n, s.heap.freed.count n = s.heap.allocated.count n) := by
  have tidy := tidy h
  refine ⟨fun n eq => ?_, tidy.page.balanced.count_le, fun idle => ⟨fun e => ?_, ?_⟩⟩
  · obtain ⟨kept, rfl⟩ := tidy.entries _ n eq
    refine (tidy.page.live _).mpr ⟨?_, rfl⟩
    cases at_stage : s.stage with
    | unloaded | vmalloc => rw [at_stage] at kept; cases kept
    | _ => rfl
  · cases eq : s.registered e with
    | none => rfl
    | some n =>
        have kept := (tidy.entries e n eq).1
        rw [idle] at kept
        cases kept
  · refine tidy.page.balanced.count_eq fun n live => ?_
    have held := ((tidy.page.live n).mp live).1
    rw [idle] at held
    cases held

theorem page_outlives_file_refused : ∃ s answers, (lifecycle 0).exec (.unloaded 0)
      [.load, .run true, .run false, .load, .run true, .run true, .run false, .run true] =
        some (s, answers) ∧
    s.registered .fortune = some 2 ∧ s.heap.Live 2 := by
  have run : ((lifecycle 0).exec (.unloaded 0)
      [.load, .run true, .run false, .load, .run true, .run true, .run false, .run true]).any
        (fun r => r.1.registered .fortune == some 2) = true := by
    decide
  obtain ⟨⟨s, answers⟩, ends, kept⟩ := (Option.any_eq_true _ _).mp run
  have entry : s.registered .fortune = some 2 := beq_iff_eq.mp kept
  exact ⟨s, answers, ends, entry, (page_outlives_file ⟨_, _, ends⟩).1 2 entry⟩

end OsUnix.SeqFortune
