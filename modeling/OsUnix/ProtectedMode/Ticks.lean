import OsUnix.ProtectedMode.HexDisplay
import OsUnix.ProtectedMode.Pieces

/-!
# Ticks

What `new_int08` counts and shows.
-/

namespace OsUnix.ProtectedMode
open X86

def time (base : Nat) (m : Machine) : BitVec 32 := word m.mem 32 (base + time08.toNat)

inductive Ticking (base : Nat) : Machine → Nat → Prop
  | begin : time base m = 0 → Ticking base m 0
  -- The code between the interrupts does not write `time_08`.
  | work : Ticking base s n → time base t = time base s → Ticking base t n
  | timer (start : Interrupted) : start.base = base → start.Reaches →
      Ticking base start.machine n → run (newInt08 start.data) start.machine = some t →
      Ticking base t (n + 1)
  | keyboard (start : Interrupted) : start.base = base → start.Reaches →
      Ticking base start.machine n → run (newInt09 start.data) start.machine = some t →
      Ticking base t n

section entered

variable (start : Interrupted)

theorem time_of_touches {A : Nat → Prop} {f : Instr} (touches : Touches seg A f)
    (segments : s.seg = seg) (done : f s = some t)
    (beside : ∀ x, base + time08.toNat ≤ x → x < base + time08.toNat + 4 → ¬ A x) :
    time base t = time base s :=
  word_congr fun x low high => (touches s t segments done).2 x (beside x low high)

theorem esp_pushTimer (small : (s.seg .ss).limit + 1 < 2 ^ 32) (done : run pushTimer s = some t) :
    (t.reg .esp).toNat + 14 = (s.reg .esp).toNat := by
  simp only [pushTimer, run_cons, Option.bind_eq_some_iff, run_nil] at done
  obtain ⟨s₁, first, s₂, second, s₃, third, s₄, fourth, final⟩ := done
  cases Option.some.inj final
  obtain ⟨_, _, seg₁, esp₁, _⟩ := push_cases (by decide) small first
  obtain ⟨_, _, seg₂, esp₂, _⟩ := push_cases (by decide) (by rwa [seg₁]) second
  obtain ⟨_, _, seg₃, esp₃, _⟩ := push_cases (by decide) (by rwa [seg₂, seg₁]) third
  obtain ⟨_, _, _, esp₄, _⟩ := push_cases (by decide) (by rwa [seg₃, seg₂, seg₁]) fourth
  omega

theorem time_beside : (start.seg .ss).base + (start.seg .ss).limit < start.base + time08.toNat ∧
    start.base + time08.toNat + 4 ≤ (start.seg .es).base := by
  have stack := stack_end start
  have video := video_base start
  have place : time08.toNat = 349 := rfl
  have position : outPosition.toNat = 515 := rfl
  omega

theorem stack_below_video :
    (start.seg .ss).base + (start.seg .ss).limit < (start.seg .es).base := by
  obtain ⟨above, below⟩ := time_beside start
  omega

def Interrupted.display (m : Machine) (seg : m.seg = start.seg) (edi : m.reg .edi = 2)
    (room : 6 ≤ (m.reg .esp).toNat) (top : (m.reg .esp).toNat ≤ 0x100) : Display where
  machine := m
  room
  top := by
    have stack : (m.seg .ss).limit = 0xFF := by
      rw [seg]
      exact congrArg Segment.limit start.stack
    rw [stack]
    exact top
  inside := by
    rw [edi, seg, Interrupted.seg, start.video]
    decide
  unwrapped := by
    rw [edi]
    decide
  beside := by
    rw [seg]
    exact Or.inl (stack_below_video start)

def Interrupted.Ticks (x : Nat) : Prop :=
  (start.seg .ss).Holds x ∨
    (start.seg .es).base + 160 ≤ x ∧ x < (start.seg .es).base + 176 ∨
    start.base + time08.toNat ≤ x ∧ x < start.base + time08.toNat + 4

structure Ticked (t : Machine) : Prop where
  time : time start.base t = ProtectedMode.time start.base start.machine + 1
  mem : ∀ x, ¬ start.Ticks x → t.mem x = start.machine.mem x

theorem run_fetchTime (reaches : start.Reaches) {m : Machine} (seg : m.seg = start.seg) :
    run [mov eax (variable32 start.data time08), mov edi (imm 2)] m =
      some ((m.set .eax (time start.base m)).set .edi 2) := by
  have moved := mov_load eax (fun _ => time08) (fits_time08 start seg)
  rw [seg, reaches] at moved
  exact run_step moved (run_step rfl rfl)

theorem run_keepTime (reaches : start.Reaches) {m : Machine} (seg : m.seg = start.seg) :
    run [inc eax, mov (variable32 start.data time08) eax] m =
      some ((m.set .eax (m.reg .eax + 1)).put (start.base + time08.toNat) (m.reg .eax + 1)) := by
  have moved := mov_store (s := start.data) (w := 32) (o := eax)
    (m := m.set .eax (m.reg .eax + 1)) (fun _ => time08) rfl (fits_time08 start seg)
  rw [Machine.set_seg, seg, reaches, Machine.set_self] at moved
  exact run_step rfl (run_step moved rfl)

structure Fetched (m : Machine) : Prop where
  seg : m.seg = start.seg
  edi : m.reg .edi = 2
  eax : m.reg .eax = time start.base start.machine
  esp : (m.reg .esp).toNat + 14 = (start.machine.reg .esp).toNat
  mem : ∀ x, ¬ (start.seg .ss).Holds x → m.mem x = start.machine.mem x

theorem fetched_newInt08 (reaches : start.Reaches) (pushed : run pushTimer start.machine = some s)
    (loaded : run [mov eax (variable32 start.data time08), mov edi (imm 2)] s = some m) :
    Fetched start m := by
  obtain ⟨above, _⟩ := time_beside start
  obtain ⟨seg, mem⟩ := touches_pushTimer start _ _ rfl pushed
  have esp := esp_pushTimer (small start) pushed
  have same : time start.base s = time start.base start.machine := by
    apply time_of_touches (touches_pushTimer start) rfl pushed
    intro x low _ inside
    exact Nat.lt_irrefl _ (Nat.lt_of_le_of_lt inside.2 (Nat.lt_of_lt_of_le above low))
  cases Option.some.inj (loaded.symm.trans (run_fetchTime start reaches seg))
  exact ⟨seg, rfl, same, esp, mem⟩

theorem ticked_of_fetched (reaches : start.Reaches) (fetched : Fetched start m)
    (printed : run myPrintEax m = some s)
    (stored : run [inc eax, mov (variable32 start.data time08) eax] s = some u) :
    Ticked start u := by
  have room := start.room
  have top := start.top
  have esp := fetched.esp
  obtain ⟨s', printed', after⟩ := run_myPrintEax
    (start.display m fetched.seg fetched.edi (by omega) (by omega))
  cases Option.some.inj (printed.symm.trans printed')
  have eax : s.reg .eax = time start.base start.machine := after.eax.trans fetched.eax
  have seg : s.seg = start.seg := after.seg.trans fetched.seg
  cases Option.some.inj (stored.symm.trans (run_keepTime start reaches seg))
  constructor
  · rw [eax]
    exact word_write _ _ _ rfl
  · intro x outside
    have away : ¬ (m.seg .ss).Holds x := fun stack => outside (Or.inl (fetched.seg ▸ stack))
    have beyond : x + 14 < (m.seg .es).base + (m.reg .edi).toNat + 172 ∨
        (m.seg .es).base + (m.reg .edi).toNat + 172 + 2 ≤ x := by
      have two : (m.reg .edi).toNat = 2 := congrArg BitVec.toNat fetched.edi
      rw [two, fetched.seg]
      by_contra within
      exact outside (Or.inr (Or.inl ⟨by omega, by omega⟩))
    have beside : s.mem x = start.machine.mem x := (after.mem_outside away beyond).trans
      (fetched.mem x fun stack => outside (Or.inl stack))
    refine (write_outside ?_).trans beside
    by_contra within
    exact outside (Or.inr (Or.inr ⟨by omega, by omega⟩))

theorem ticked_newInt08 (reaches : start.Reaches)
    (done : run (newInt08 start.data) start.machine = some t) : Ticked start t := by
  rw [newInt08_eq] at done
  simp only [run_append, Option.bind_eq_some_iff] at done
  obtain ⟨s, pushed, m, loaded, s', printed, u, stored, popped⟩ := done
  have fetched := fetched_newInt08 start reaches pushed loaded
  have ticked := ticked_of_fetched start reaches fetched printed stored
  have same (x) : t.mem x = u.mem x := (touches_popTimer u t rfl popped).2 x not_false
  constructor
  · rw [time_of_touches touches_popTimer rfl popped fun _ _ _ => not_false, ticked.time]
  · intro x outside
    rw [same x, ticked.mem x outside]

theorem time_newInt09 (reaches : start.Reaches)
    (done : run (newInt09 start.data) start.machine = some t) :
    time start.base t = time start.base start.machine := by
  obtain ⟨above, below⟩ := time_beside start
  apply time_of_touches (touches_newInt09 start reaches) rfl done
  have place : time08.toNat = 349 := rfl
  have flag : escape.toNat = 348 := rfl
  have position : outPosition.toNat = 515 := rfl
  intro x low high written
  rcases written with stack | video | known | known
  · have last := stack.2
    omega
  · have first := video.1
    omega
  · omega
  · omega

end entered

theorem time_of_ticking (ticking : Ticking base m n) : time base m = BitVec.ofNat 32 n := by
  induction ticking with
  | begin zero => exact zero
  | work _ same ih => exact same.trans ih
  | timer start placed reaches _ done ih =>
      subst placed
      rw [(ticked_newInt08 start reaches done).time, ih, BitVec.ofNat_add]
      rfl
  | keyboard start placed reaches _ done ih =>
      subst placed
      exact (time_newInt09 start reaches done).trans ih

/-- The macro shows EAX in its eight cells and changes nothing else of the video memory, and the
variable of the timer counts the ticks. -/
theorem shows_and_counts :
    (∀ d : Display, ∃ t, run myPrintEax d.machine = some t ∧
      Shows t.mem d.last (hex (d.machine.reg .eax)) ∧
      (∀ x, (d.machine.seg .es).Holds x → x + 14 < d.last ∨ d.last + 2 ≤ x →
        t.mem x = d.machine.mem x) ∧
      t.reg .eax = d.machine.reg .eax ∧ t.reg .ecx = d.machine.reg .ecx ∧
      t.reg .edx = d.machine.reg .edx) ∧
    (∀ start : Interrupted, ∃ t, run (newInt08 start.data) start.machine = some t) ∧
    ∀ base m n, Ticking base m n → time base m = BitVec.ofNat 32 n := by
  refine ⟨fun d => ?_, fun start => ?_, fun base m n => time_of_ticking⟩
  · obtain ⟨t, done, printed⟩ := run_myPrintEax d
    refine ⟨t, done, ?_, ?_, printed.eax, printed.ecx, printed.edx⟩
    · rw [printed.mem]
      exact shows_hex _ (by rw [Display.last]; omega)
    · intro x video outside
      have beside := d.beside
      have low := video.1
      have high := video.2
      refine printed.mem_outside (fun stack => ?_) outside
      have first := stack.1
      have last := stack.2
      omega
  · obtain ⟨t, done, _⟩ := total_newInt08 start start.room start.top start.machine ⟨rfl, rfl, rfl⟩
    exact ⟨t, done⟩

theorem shows_and_counts_tick : ∃ t,
    run (newInt08 .cs) (tick .cs (Or.inl rfl)).machine = some t ∧ time 0x10000 t = 1 := by
  obtain ⟨_, returns, counts⟩ := shows_and_counts
  obtain ⟨t, done⟩ := returns (tick .cs (Or.inl rfl))
  have begin : Ticking 0x10000 (tick .cs (Or.inl rfl)).machine 0 := .begin (by decide)
  exact ⟨t, done, counts 0x10000 t 1 (.timer (tick .cs (Or.inl rfl)) rfl rfl begin done)⟩

end OsUnix.ProtectedMode
