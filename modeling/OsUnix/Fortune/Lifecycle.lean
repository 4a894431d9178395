import OsUnix.Fortune.Module

/-!
# The life of the pot

Each region that `vmalloc` returns is freed once, whatever fails. The error exit of `fortune_init`
frees the pot but leaves the `/proc` entries that the load did create.
-/

namespace OsUnix.Fortune
open Kernel

variable {outside : Memory} {s t : Module} {event : Event} {answer : Option Answer} {e : Entry}
  {n : Nat}

inductive Moves (outside : Memory) (s : Module) : Event → Module → Prop
  | load (idle : s.stage = .unloaded) : Moves outside s .load s.insmod
  | vmalloc (granted : Bool) (at_stage : s.stage = .vmalloc) :
      Moves outside s (.run granted) (s.vmalloc outside granted)
  | create (e : Entry) (granted : Bool) (at_stage : s.stage = .create e) :
      Moves outside s (.run granted) (s.create e granted)
  | check (granted : Bool) (at_stage : s.stage = .check) : Moves outside s (.run granted) s.check
  | remove (e : Entry) (granted : Bool) (at_stage : s.stage = .remove e) :
      Moves outside s (.run granted) (s.remove e)
  | vfree (granted : Bool) (at_stage : s.stage = .vfree) : Moves outside s (.run granted) s.vfree
  | unload (at_stage : s.stage = .loaded) :
      Moves outside s .unload { s with stage := .remove .fortune }
  | call (op : Op) (pot : Pot) : Moves outside s (.call op) { s with pot }

theorem moves_of_step (step : (lifecycle outside).step s event = some (t, answer)) :
    Moves outside s event t := by
  cases event with
  | load =>
      obtain ⟨idle, eq⟩ := Option.ite_none_right_eq_some.mp step
      cases eq
      exact .load idle
  | run granted =>
      obtain ⟨u, advance, eq⟩ := Option.map_eq_some_iff.mp step
      cases eq
      unfold Module.advance at advance
      split at advance <;> cases advance
      · exact .vmalloc granted ‹_›
      · exact .create _ granted ‹_›
      · exact .check granted ‹_›
      · exact .remove _ granted ‹_›
      · exact .vfree granted ‹_›
  | unload =>
      obtain ⟨loaded, eq⟩ := Option.ite_none_right_eq_some.mp step
      cases eq
      exact .unload loaded
  | call op =>
      have step : s.call outside op = some (t, answer) := step
      unfold Module.call at step
      split at step
      · cases step
      · split at step
        · obtain ⟨r, -, eq⟩ := Option.map_eq_some_iff.mp step
          cases eq
          exact .call op _
        · cases step
          exact .call op s.pot

/-! ## Regions -/

def Stage.holds : Stage → Bool
  | .unloaded | .vmalloc => false
  | _ => true

structure Ledger (s : Module) : Prop where
  balanced : s.heap.Balanced
  live : ∀ n, s.heap.Live n ↔ s.stage.holds = true ∧ n = s.load
  cookiePot : s.stage.holds = true → s.cookiePot = some s.load
  fresh : ∀ n ∈ s.heap.allocated, n ≤ s.load ∧ (s.stage = .vmalloc → n ≠ s.load)

theorem Ledger.keep (ledger : Ledger s) (heap : t.heap = s.heap) (load : t.load = s.load)
    (cookiePot : t.cookiePot = s.cookiePot) (holds : t.stage.holds = s.stage.holds)
    (other : t.stage ≠ .vmalloc) : Ledger t where
  balanced := by rw [heap]; exact ledger.balanced
  live n := by rw [heap, holds, load]; exact ledger.live n
  cookiePot held := by
    rw [cookiePot, load]
    exact ledger.cookiePot (holds ▸ held)
  fresh n mem := by
    rw [heap] at mem
    rw [load]
    exact ⟨(ledger.fresh n mem).1, fun at_vmalloc => absurd at_vmalloc other⟩

theorem Ledger.vfree (ledger : Ledger s) (holds : s.stage.holds = true) : Ledger s.vfree where
  balanced := by
    rw [Module.vfree, ledger.cookiePot holds]
    exact ledger.balanced.free ((ledger.live _).mpr ⟨holds, rfl⟩)
  live n := by
    rw [Module.vfree, ledger.cookiePot holds, Heap.live_free, ledger.live]
    constructor
    · rintro ⟨⟨-, rfl⟩, other⟩
      exact absurd rfl other
    · rintro ⟨⟨⟩, -⟩
  cookiePot := nofun
  fresh _ mem := by
    rw [Module.vfree, ledger.cookiePot holds] at mem
    exact ⟨(ledger.fresh _ mem).1, nofun⟩

theorem Ledger.insmod (ledger : Ledger s) (idle : s.stage = .unloaded) : Ledger s.insmod where
  balanced := ledger.balanced
  live n := by
    show s.heap.Live n ↔ _
    rw [ledger.live, idle]
    exact ⟨fun ⟨held, _⟩ => absurd held nofun, fun ⟨held, _⟩ => absurd held nofun⟩
  cookiePot := nofun
  fresh n mem := by
    have le := (ledger.fresh n mem).1
    show n ≤ s.load + 1 ∧ (_ → n ≠ s.load + 1)
    omega

theorem Ledger.vmalloc (ledger : Ledger s) (at_stage : s.stage = .vmalloc) (granted : Bool) :
    Ledger (s.vmalloc outside granted) := by
  have none (n : Nat) : ¬ s.heap.Live n := by
    rw [ledger.live, at_stage]
    rintro ⟨⟨⟩, -⟩
  cases granted with
  | false =>
      refine ⟨ledger.balanced, fun n => ⟨fun live => absurd live (none n), ?_⟩, nofun,
        fun _ mem => ⟨(ledger.fresh _ mem).1, nofun⟩⟩
      rintro ⟨⟨⟩, -⟩
  | true =>
      have new : s.load ∉ s.heap.allocated := fun mem => (ledger.fresh _ mem).2 at_stage rfl
      refine ⟨ledger.balanced.alloc new, fun n => ?_, fun _ => rfl, ?_⟩
      · show (s.heap.alloc s.load).Live n ↔ _
        rw [Heap.live_alloc ledger.balanced new]
        exact ⟨fun live => ⟨rfl, live.resolve_right (none n)⟩, fun ⟨_, eq⟩ => .inl eq⟩
      · intro _ mem
        refine ⟨?_, nofun⟩
        rcases List.mem_cons.mp mem with rfl | mem
        · exact Nat.le_refl _
        · exact (ledger.fresh _ mem).1

theorem Ledger.step (ledger : Ledger s) (moves : Moves outside s event t) : Ledger t := by
  cases moves with
  | load idle => exact ledger.insmod idle
  | vmalloc granted at_stage => exact ledger.vmalloc at_stage granted
  | create e granted at_stage =>
      unfold Module.create
      split <;> exact ledger.keep rfl rfl rfl (by rw [at_stage]; cases e <;> rfl)
        (by cases e <;> nofun)
  | check granted at_stage =>
      unfold Module.check
      split
      · exact ledger.vfree (by rw [at_stage]; rfl)
      · exact ledger.keep rfl rfl rfl (by rw [at_stage]; rfl) nofun
  | remove e granted at_stage =>
      exact ledger.keep rfl rfl rfl (by rw [at_stage]; cases e <;> rfl) (by cases e <;> nofun)
  | vfree granted at_stage => exact ledger.vfree (by rw [at_stage]; rfl)
  | unload at_stage => exact ledger.keep rfl rfl rfl (by rw [at_stage]; rfl) nofun
  | call op pot =>
      exact ⟨ledger.balanced, ledger.live, ledger.cookiePot, ledger.fresh⟩

theorem Ledger.unloaded : Ledger (.unloaded outside) where
  balanced := Heap.balanced_empty
  live _ := ⟨fun live => absurd live Heap.not_live_empty, fun ⟨held, _⟩ => absurd held nofun⟩
  cookiePot := nofun
  fresh := List.forall_mem_nil _

theorem ledger (h : (lifecycle outside).Reachable s) : Ledger s :=
  h.invariant Ledger.unloaded fun ledger step => ledger.step (moves_of_step step)

/-- Whatever fails, no pot is freed twice, and none is left when the module is not loaded. -/
theorem freed_once (h : (lifecycle outside).Reachable s) (n : Nat) :
    s.heap.freed.count n ≤ s.heap.allocated.count n ∧
    (s.stage = .unloaded → s.heap.freed.count n = s.heap.allocated.count n) := by
  have ledger := ledger h
  refine ⟨ledger.balanced.count_le n, fun idle => ledger.balanced.count_eq (fun n live => ?_) n⟩
  rw [ledger.live, idle] at live
  cases live.1

/-- A load whose `proc_mkdir` fails, and one that fails because of what the first has left. -/
theorem freed_once_refused : ∃ s answers, (lifecycle 0).exec (.unloaded 0)
      [.load, .run true, .run true, .run false, .run true, .run true,
        .load, .run true, .run true, .run true, .run true, .run true] = some (s, answers) ∧
    s.heap.allocated = [2, 1] ∧ s.heap.freed.count 2 = s.heap.allocated.count 2 := by
  have twice : ((lifecycle 0).exec (.unloaded 0)
      [.load, .run true, .run true, .run false, .run true, .run true,
        .load, .run true, .run true, .run true, .run true, .run true]).any (fun r =>
          r.1.stage == .unloaded && r.1.heap.allocated == [2, 1]) = true := rfl
  obtain ⟨⟨s, answers⟩, run, last⟩ := (Option.any_eq_true _ _).mp twice
  simp only [Bool.and_eq_true, beq_iff_eq] at last
  exact ⟨s, answers, run, last.2, (freed_once ⟨_, _, run⟩ 2).2 last.1⟩

/-! ## Entries -/

structure Tidy (s : Module) (event : Event) (t : Module) : Prop where
  call : ∀ op n, event = .call op → s.registered .fortune = some n → s.heap.Live n
  freed : ∀ n, t.heap.freed.count n ≤ t.heap.allocated.count n
  ended : t.stage = .unloaded → (∀ n, t.heap.freed.count n = t.heap.allocated.count n) ∧
    ∀ e, t.registered e ≠ some t.load

def Uniform (s : Module) : Event → Prop
  | .run _ => s.stage = .check → (∀ e, s.created e = none) ∨ ∀ e, s.created e ≠ none
  | _ => True

def Stage.keeps : Stage → Entry → Bool
  | .create .fortuneDir, .fortune => true
  | .create .fortuneLink, .fortune | .create .fortuneLink, .fortuneDir => true
  | .check, _ | .loaded, _ => true
  | .remove .fortune, _ => true
  | .remove .fortuneDir, .fortuneDir | .remove .fortuneDir, .fortuneLink => true
  | .remove .fortuneLink, .fortuneLink => true
  | _, _ => false

def Stage.loading : Stage → Bool
  | .vmalloc | .create _ | .check => true
  | _ => false

theorem keeps_create : (Stage.create e).keeps e = false := by cases e <;> rfl

theorem keeps_afterCreate (e' : Entry) :
    (Stage.afterCreate e).keeps e' = true ↔ e' = e ∨ (Stage.create e).keeps e' = true := by
  cases e <;> cases e' <;> decide

theorem keeps_afterRemove (e' : Entry) :
    (Stage.afterRemove e).keeps e' = true ↔ e' ≠ e ∧ (Stage.remove e).keeps e' = true := by
  cases e <;> cases e' <;> decide

structure Clean (s : Module) : Prop where
  registered : ∀ e, s.registered e = if s.stage.keeps e = true then s.created e else none
  created : ∀ e n, s.created e = some n → n = s.load
  ret : s.stage.loading = true →
    (s.ret = -enomem ↔ ∃ e, s.stage.keeps e = true ∧ s.created e = none)

theorem Clean.created_update (clean : Clean s) {r : Option Nat}
    (own : ∀ n, r = some n → n = s.load) :
    ∀ e' n, Function.update s.created e r e' = some n → n = s.load := by
  intro e' n eq
  rcases eq_or_ne e' e with rfl | other
  · exact own n (by rwa [Function.update_self] at eq)
  · exact clean.created e' n (by rwa [Function.update_of_ne other] at eq)

theorem Clean.create (clean : Clean s) (at_stage : s.stage = .create e) (granted : Bool) :
    Clean (s.create e granted) := by
  have registered := clean.registered
  have ret := clean.ret (by rw [at_stage]; rfl)
  rw [at_stage] at registered ret
  have free : s.registered e = none := by rw [registered, keeps_create]; rfl
  have before {e' : Entry} (other : e' ≠ e) :
      (Stage.afterCreate e).keeps e' = true ↔ (Stage.create e).keeps e' = true := by
    rw [keeps_afterCreate, or_iff_right other]
  have self : (Stage.afterCreate e).keeps e = true := (keeps_afterCreate e).mpr (.inl rfl)
  cases granted with
  | true =>
      rw [Module.create, if_pos ⟨rfl, free⟩]
      refine ⟨fun e' => ?_, clean.created_update fun n eq => (Option.some.inj eq).symm, fun _ => ?_⟩
      · show Function.update s.registered e (some s.load) e' =
          if (Stage.afterCreate e).keeps e' = true
          then Function.update s.created e (some s.load) e' else none
        rcases eq_or_ne e' e with rfl | other
        · rw [Function.update_self, Function.update_self, if_pos self]
        · rw [Function.update_of_ne other, Function.update_of_ne other, registered]
          exact if_congr (before other).symm rfl rfl
      · show s.ret = -enomem ↔ ∃ e', (Stage.afterCreate e).keeps e' = true ∧
          Function.update s.created e (some s.load) e' = none
        rw [ret]
        constructor
        · rintro ⟨e', kept, refused⟩
          have other : e' ≠ e := by
            rintro rfl
            rw [keeps_create] at kept
            cases kept
          exact ⟨e', (before other).mpr kept, by rwa [Function.update_of_ne other]⟩
        · rintro ⟨e', kept, refused⟩
          rcases eq_or_ne e' e with rfl | other
          · rw [Function.update_self] at refused
            cases refused
          · exact ⟨e', (before other).mp kept, by rwa [Function.update_of_ne other] at refused⟩
  | false =>
      rw [Module.create, if_neg (by rintro ⟨⟨⟩, -⟩)]
      refine ⟨fun e' => ?_, clean.created_update nofun, fun _ => ?_⟩
      · show s.registered e' = if (Stage.afterCreate e).keeps e' = true
          then Function.update s.created e none e' else none
        rcases eq_or_ne e' e with rfl | other
        · rw [Function.update_self, ite_self, free]
        · rw [Function.update_of_ne other, registered]
          exact if_congr (before other).symm rfl rfl
      · exact iff_of_true rfl ⟨e, self, Function.update_self ..⟩

theorem Clean.remove (clean : Clean s) (at_stage : s.stage = .remove e) : Clean (s.remove e) where
  registered e' := by
    have registered := clean.registered
    rw [at_stage] at registered
    show (if s.created e = none then s.registered else Function.update s.registered e none) e' =
      if (Stage.afterRemove e).keeps e' = true then s.created e' else none
    rcases eq_or_ne e' e with rfl | other
    · rw [if_neg fun kept => ((keeps_afterRemove _).mp kept).1 rfl]
      split
      · rename_i missing
        rw [registered, missing, ite_self]
      · exact Function.update_self ..
    · have same : (if s.created e = none then s.registered
          else Function.update s.registered e none) e' = s.registered e' := by
        split
        · rfl
        · exact Function.update_of_ne other ..
      rw [same, registered]
      exact if_congr (by rw [keeps_afterRemove, and_iff_right other]) rfl rfl
  created := clean.created
  ret loading := by
    cases e <;> cases loading

theorem Clean.keep (clean : Clean s) (registered : t.registered = s.registered)
    (created : t.created = s.created) (load : t.load = s.load)
    (keeps : t.stage.keeps = s.stage.keeps) (loaded : t.stage.loading = false) : Clean t where
  registered e := by
    rw [registered, created, keeps]
    exact clean.registered e
  created e n eq := by
    rw [created] at eq
    rw [load]
    exact clean.created e n eq
  ret loading := by
    rw [loaded] at loading
    cases loading

theorem Clean.none_registered (clean : Clean s) (keeps : s.stage.keeps = fun _ => false)
    (e : Entry) : s.registered e = none := by
  rw [clean.registered, keeps]
  rfl

theorem Clean.step (clean : Clean s) (moves : Moves outside s event t) (uniform : Uniform s event) :
    Clean t := by
  cases moves with
  | load idle =>
      refine ⟨fun e => ?_, nofun, fun _ => ⟨nofun, nofun⟩⟩
      exact clean.none_registered (by rw [idle]; rfl) e
  | vmalloc granted at_stage =>
      have ret := clean.ret (by rw [at_stage]; rfl)
      have registered := clean.none_registered (by rw [at_stage]; rfl)
      cases granted with
      | true =>
          refine ⟨fun e => ?_, clean.created, fun _ => ?_⟩
          · cases e <;> exact registered _
          · show s.ret = -enomem ↔ ∃ e, (Stage.create .fortune).keeps e = true ∧ s.created e = none
            rw [ret, at_stage]
            exact Iff.rfl
      | false => exact clean.keep rfl rfl rfl (by rw [at_stage]; rfl) rfl
  | create e granted at_stage => exact clean.create at_stage granted
  | check granted at_stage =>
      unfold Module.check
      split
      · rename_i refused
        obtain ⟨e, -, missing⟩ := (clean.ret (by rw [at_stage]; rfl)).mp refused
        have all := (uniform at_stage).resolve_right fun created => created e missing
        refine ⟨fun e => ?_, clean.created, nofun⟩
        show s.registered e = none
        rw [clean.registered, all, ite_self]
      · exact clean.keep rfl rfl rfl (by rw [at_stage]; rfl) rfl
  | remove e granted at_stage => exact clean.remove at_stage
  | vfree granted at_stage => exact clean.keep rfl rfl rfl (by rw [at_stage]; rfl) rfl
  | unload at_stage => exact clean.keep rfl rfl rfl (by rw [at_stage]; rfl) rfl
  | call op pot => exact ⟨clean.registered, clean.created, clean.ret⟩

theorem Clean.unloaded : Clean (.unloaded outside) := ⟨fun _ => rfl, nofun, nofun⟩

theorem holds_of_keeps {stage : Stage} (keeps : stage.keeps e = true) : stage.holds = true := by
  cases stage <;> first | rfl | cases keeps

theorem Clean.created_of_registered (clean : Clean s) (entry : s.registered e = some n) :
    s.stage.keeps e = true ∧ s.created e = some n := by
  rw [clean.registered] at entry
  split at entry
  · exact ⟨‹_›, entry⟩
  · cases entry

theorem Clean.live (clean : Clean s) (ledger : Ledger s) (entry : s.registered e = some n) :
    s.heap.Live n := by
  obtain ⟨keeps, created⟩ := clean.created_of_registered entry
  exact (ledger.live n).mpr ⟨holds_of_keeps keeps, clean.created e n created⟩

theorem Tidy.of_clean (clean : Clean s) (ledger : Ledger s) (clean' : Clean t)
    (ledger' : Ledger t) : Tidy s event t where
  call _ _ _ entry := clean.live ledger entry
  freed := ledger'.balanced.count_le
  ended idle := by
    refine ⟨ledger'.balanced.count_eq fun n live => ?_, fun e => ?_⟩
    · rw [ledger'.live, idle] at live
      cases live.1
    · rw [clean'.none_registered (by rw [idle]; rfl) e]
      exact nofun

theorem check_of_moves {granted : Bool} (moves : Moves outside s (.run granted) t)
    (at_check : s.stage = .check) : t = s.check := by
  cases moves with
  | check _ _ => rfl
  | vmalloc _ at_stage => cases at_check.symm.trans at_stage
  | create _ _ at_stage => cases at_check.symm.trans at_stage
  | remove _ _ at_stage => cases at_check.symm.trans at_stage
  | vfree _ at_stage => cases at_check.symm.trans at_stage

theorem Tidy.uniform (tidy : Tidy s event t) (clean : Clean s) (moves : Moves outside s event t) :
    Uniform s event := by
  cases event with
  | run granted =>
      intro at_check
      have ret := clean.ret (by rw [at_check]; rfl)
      by_cases refused : s.ret = -enomem
      · refine .inl fun e => ?_
        have after : t = s.vfree := (check_of_moves moves at_check).trans (if_pos refused)
        have ended : s.registered e ≠ some s.load := by
          rw [after] at tidy
          exact (tidy.ended rfl).2 e
        rw [clean.registered, at_check] at ended
        cases created : s.created e with
        | none => rfl
        | some n =>
            rw [clean.created e n created] at created
            exact absurd created ended
      · rw [ret, not_exists] at refused
        refine .inr fun e missing => refused e ⟨?_, missing⟩
        rw [at_check]
        rfl
  | _ => trivial

/-- Every step of a run is as it should be exactly when no load creates some of its entries
only. -/
theorem tidy_iff (outside : Memory) (events : List Event) :
    (lifecycle outside).Always (fun s event t _ => Tidy s event t) (.unloaded outside) events ↔
      (lifecycle outside).Always (fun s event _ _ => Uniform s event) (.unloaded outside)
        events := by
  have keep {s : Module} {event : Event} {t : Module} (inv : Clean s ∧ Ledger s)
      (moves : Moves outside s event t) (uniform : Uniform s event) : Clean t ∧ Ledger t :=
    ⟨inv.1.step moves uniform, inv.2.step moves⟩
  apply Component.Always.congr (I := fun s => Clean s ∧ Ledger s)
  · exact ⟨Clean.unloaded, Ledger.unloaded⟩
  · intro s event t _ inv step
    have moves := moves_of_step step
    constructor
    · exact fun tidy => tidy.uniform inv.1 moves
    · intro uniform
      obtain ⟨clean, ledger⟩ := keep inv moves uniform
      exact .of_clean inv.1 inv.2 clean ledger
  · intro s event t _ inv step tidy
    have moves := moves_of_step step
    exact keep inv moves (tidy.uniform inv.1 moves)

def mkdirFails : List Event :=
  [.load, .run true, .run true, .run false, .run true, .run true, .call (.read 0 16 16)]

theorem tidy_fails : ¬ (lifecycle 0).Always (fun s event t _ => Tidy s event t) (.unloaded 0)
    mkdirFails := by
  intro always
  obtain ⟨-, always⟩ := always _ _ rfl
  obtain ⟨-, always⟩ := always _ _ rfl
  obtain ⟨-, always⟩ := always _ _ rfl
  obtain ⟨-, always⟩ := always _ _ rfl
  obtain ⟨-, always⟩ := always _ _ rfl
  obtain ⟨-, always⟩ := always _ _ rfl
  obtain ⟨tidy, -⟩ := always _ _ rfl
  exact absurd (tidy.call _ 1 rfl rfl) (by decide)

/-! ## What a failed load leaves behind -/

def fullLoad : List Event := .load :: List.replicate 5 (.run true)

structure Stale (s : Module) (e : Entry) (n : Nat) : Prop where
  registered : s.registered e = some n
  stage : s.stage = .unloaded ∨ s.stage.loading = true
  ret : s.stage.keeps e = true → s.ret = -enomem

theorem Stale.create (stale : Stale s e n) (e' : Entry) (granted : Bool)
    (at_stage : s.stage = .create e') : Stale (s.create e' granted) e n := by
  have taken : s.registered e ≠ none := by rw [stale.registered]; nofun
  have ret := stale.ret
  rw [at_stage] at ret
  unfold Module.create
  split
  · rename_i created
    have other : e ≠ e' := by
      rintro rfl
      exact taken created.2
    refine ⟨(Function.update_of_ne other ..).trans stale.registered, .inr (by cases e' <;> rfl),
      fun keeps => ret ?_⟩
    exact ((keeps_afterCreate e).mp keeps).resolve_left other
  · exact ⟨stale.registered, .inr (by cases e' <;> rfl), fun _ => rfl⟩

theorem Stale.step (stale : Stale s e n) (moves : Moves outside s event t) : Stale t e n := by
  have stage := stale.stage
  cases moves with
  | load _ => exact ⟨stale.registered, .inr rfl, nofun⟩
  | vmalloc granted at_stage =>
      cases granted with
      | true => exact ⟨stale.registered, .inr rfl, by cases e <;> nofun⟩
      | false => exact ⟨stale.registered, .inl rfl, nofun⟩
  | create e' granted at_stage => exact stale.create e' granted at_stage
  | check granted at_stage =>
      rw [Module.check, if_pos (stale.ret (by rw [at_stage]; rfl))]
      exact ⟨stale.registered, .inl rfl, nofun⟩
  | remove e' granted at_stage =>
      rw [at_stage] at stage
      exact absurd stage (by simp [Stage.loading])
  | vfree granted at_stage =>
      rw [at_stage] at stage
      exact absurd stage (by simp [Stage.loading])
  | unload at_stage =>
      rw [at_stage] at stage
      exact absurd stage (by simp [Stage.loading])
  | call op pot => exact ⟨stale.registered, stale.stage, stale.ret⟩

/-- With an entry left behind the module is never loaded again. -/
theorem never_loaded_again (left : s.registered e = some n) (idle : s.stage = .unloaded)
    {events : List Event} {answers : List (Option Answer)}
    (run : (lifecycle outside).exec s events = some (t, answers)) :
    t.registered e = some n ∧ t.stage ≠ .loaded := by
  have stale : Stale s e n := ⟨left, .inl idle, fun keeps => by
    rw [idle] at keeps
    cases keeps⟩
  have stale := Component.exec_invariant (I := fun s => Stale s e n) run stale
    fun stale step => stale.step (moves_of_step step)
  refine ⟨stale.registered, fun loaded => ?_⟩
  have stage := stale.stage
  rw [loaded] at stage
  exact stage.elim nofun nofun

theorem never_loaded_again_mkdir : ∃ s answers t later,
    (lifecycle 0).exec (.unloaded 0) (mkdirFails.take 6) = some (s, answers) ∧
    (lifecycle 0).exec s fullLoad = some (t, later) ∧
    t.registered .fortune = some 1 ∧ t.stage ≠ .loaded := by
  have fails : ((lifecycle 0).exec (.unloaded 0) (mkdirFails.take 6)).any (fun r =>
      r.1.registered .fortune == some 1 && r.1.stage == .unloaded &&
        ((lifecycle 0).exec r.1 fullLoad).isSome) = true := rfl
  obtain ⟨⟨s, answers⟩, run, left⟩ := (Option.any_eq_true _ _).mp fails
  simp only [Bool.and_eq_true, beq_iff_eq] at left
  obtain ⟨⟨left, idle⟩, again⟩ := left
  obtain ⟨⟨t, later⟩, again⟩ := Option.isSome_iff_exists.mp again
  exact ⟨s, answers, t, later, run, again, never_loaded_again left idle again⟩

/-! ## Calls of a loaded module -/

theorem create_stage {granted : Bool} : (s.create e granted).stage = .afterCreate e := by
  unfold Module.create
  split <;> rfl

theorem create_granted (free : s.registered e = none) :
    s.create e true = { s with
      stage := .afterCreate e
      created := Function.update s.created e (some s.load)
      registered := Function.update s.registered e (some s.load) } :=
  if_pos ⟨rfl, free⟩

theorem step_create {granted : Bool} (at_stage : s.stage = .create e) :
    (lifecycle outside).step s (.run granted) = some (s.create e granted, none) := by
  show (s.advance outside granted).map _ = _
  rw [Module.advance, at_stage]
  rfl

theorem exec_creates (at_stage : s.stage = .create .fortune) (free : ∀ e, s.registered e = none) :
    ∃ t, (lifecycle outside).exec s (List.replicate 3 (.run true)) =
        some (t, List.replicate 3 none) ∧
      t.stage = .check ∧ t.ret = s.ret ∧ t.pot = s.pot ∧ t.registered .fortune = some t.load := by
  have fortune := create_granted (free .fortune)
  have fortuneDir := create_granted (s := s.create .fortune true) (e := .fortuneDir)
    (by rw [fortune]; exact free .fortuneDir)
  have fortuneLink := create_granted
    (s := (s.create .fortune true).create .fortuneDir true) (e := .fortuneLink)
    (by rw [fortuneDir, fortune]; exact free .fortuneLink)
  refine ⟨_, Component.exec_cons (step_create at_stage) (Component.exec_cons
    (step_create create_stage) (Component.exec_cons (step_create create_stage) rfl)), ?_⟩
  rw [fortuneLink, fortuneDir, fortune]
  exact ⟨rfl, rfl, rfl, rfl⟩

theorem exec_load (ledger : Ledger s) (idle : s.stage = .unloaded)
    (free : ∀ e, s.registered e = none) :
    ∃ t, (lifecycle outside).exec s fullLoad = some (t, List.replicate 6 none) ∧
      t.stage = .loaded ∧ t.registered .fortune = some t.load ∧ t.heap.Live t.load ∧
      t.pot = (component outside).start := by
  obtain ⟨t, run, at_check, ret, pot, entry⟩ :=
    @exec_creates outside (s.insmod.vmalloc outside true) rfl free
  obtain ⟨u, check, loaded, entry, start⟩ : ∃ u,
      (lifecycle outside).step t (.run true) = some (u, none) ∧ u.stage = .loaded ∧
        u.registered .fortune = some u.load ∧ u.pot = (component outside).start := by
    refine ⟨{ t with stage := .loaded, pot := { t.pot with cookieIndex := 0, nextFortune := 0 } },
      ?_, rfl, entry, by rw [pot]; rfl⟩
    show (t.advance outside true).map _ = _
    rw [Module.advance, at_check, Module.check, if_neg (by rw [ret]; nofun)]
    rfl
  have insmod : (lifecycle outside).step s .load = some (s.insmod, none) := if_pos idle
  have vmalloc : (lifecycle outside).step s.insmod (.run true) =
      some (s.insmod.vmalloc outside true, none) := rfl
  have last : (lifecycle outside).exec t [.run true] = some (u, [none]) :=
    Component.exec_cons check rfl
  have loads : (lifecycle outside).exec s fullLoad = some (u, List.replicate 6 none) :=
    Component.exec_cons insmod (Component.exec_cons vmalloc (Component.exec_append run last))
  have ledger := Component.exec_invariant loads ledger
    fun ledger step => ledger.step (moves_of_step step)
  exact ⟨u, loads, loaded, entry, (ledger.live _).mpr ⟨by rw [loaded]; rfl, rfl⟩, start⟩

theorem exec_calls {ops : List Op} {pot : Pot} {answers : List Answer}
    (entry : s.registered .fortune = some n) (live : s.heap.Live n)
    (run : (component outside).exec s.pot ops = some (pot, answers)) :
    (lifecycle outside).exec s (ops.map .call) = some ({ s with pot }, answers.map some) := by
  induction ops generalizing s answers with
  | nil =>
      obtain ⟨rfl, rfl⟩ : s.pot = pot ∧ [] = answers := by simpa [Component.exec] using run
      rfl
  | cons op ops ih =>
      obtain ⟨next, answer, rest, first, tail, rfl⟩ := Component.exec_eq_some.mp run
      have step : (lifecycle outside).step s (.call op) =
          some ({ s with pot := next }, some answer) := by
        show s.call outside op = _
        rw [Module.call, entry]
        simp only [if_pos live, first, Option.map_some]
      exact Component.exec_cons step (ih (s := { s with pot := next }) entry live tail)

/-- From wherever no entry is left, a load that is refused nothing makes the module answer its calls
as `component` does from its start. -/
theorem serves_after_load (h : (lifecycle outside).Reachable s) (idle : s.stage = .unloaded)
    (free : ∀ e, s.registered e = none) {ops : List Op} {pot : Pot} {answers : List Answer}
    (run : (component outside).exec (component outside).start ops = some (pot, answers)) :
    ∃ t, (lifecycle outside).exec s (fullLoad ++ ops.map .call) =
        some (t, List.replicate 6 none ++ answers.map some) ∧
      t.stage = .loaded ∧ t.pot = pot := by
  obtain ⟨u, loads, at_u, entry, live, fresh⟩ := @exec_load outside s (ledger h) idle free
  rw [← fresh] at run
  exact ⟨{ u with pot }, Component.exec_append loads (exec_calls entry live run), at_u, rfl⟩

theorem serves_after_load_first : ∃ t, (lifecycle 0).exec (.unloaded 0)
      (fullLoad ++ [.write [97, 0] 2, .write [98, 0] 2].map .call) =
        some (t, List.replicate 6 none ++
          [some (.wrote (fortuneWrite (Pot.fresh 0) [97, 0] 2)),
            some (.wrote (fortuneWrite (fortuneWrite (Pot.fresh 0) [97, 0] 2).pot [98, 0] 2))]) ∧
    t.stage = .loaded ∧
    t.pot = (fortuneWrite (fortuneWrite (Pot.fresh 0) [97, 0] 2).pot [98, 0] 2).pot :=
  @serves_after_load 0 _ .start rfl (fun _ => rfl) [.write [97, 0] 2, .write [98, 0] 2] _ _ rfl

end OsUnix.Fortune
