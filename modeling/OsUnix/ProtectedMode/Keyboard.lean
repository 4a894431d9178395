import OsUnix.ProtectedMode.Ticks
import Mathlib.Data.List.Chain

/-!
# Keys

How far `new_int09` gets in `ASCII_table` and on the screen, over any number of keys.
-/

namespace OsUnix.ProtectedMode
open X86

def passes (m : Machine) : Bool := !alIs 0x1C m && !alAbove 0x80 m

section interrupt

variable (start : Interrupted)

def Interrupted.atLookup : Option Machine := do
  let m ← run readKey start.machine
  if passes m then run indexKey m else none

def Interrupted.atStore : Option Machine := do
  let m ← start.atLookup
  run (fetchKey start.data) m

def Interrupted.InTable : Prop := ∀ m, start.atLookup = some m → (m.reg .ebp).toNat < 54

def Interrupted.OnScreen : Prop := ∀ m, start.atStore = some m → (m.reg .ebx).toNat < 4000

def Interrupted.code : BitVec 8 := start.machine.port 0x60

def position (base : Nat) (m : Machine) : BitVec 32 := word m.mem 32 (base + outPosition.toNat)

def Interrupted.Silent : Prop := ∀ t, run (newInt09 start.data) start.machine = some t →
  position start.base t = position start.base start.machine ∧
    ∀ x, (start.machine.seg .es).Holds x → t.mem x = start.machine.mem x

def Interrupted.Prints : Prop := start.code ≠ 0x1C ∧ start.code.toNat ≤ 0x80

instance : Decidable start.Prints := inferInstanceAs (Decidable (_ ∧ _))

end interrupt

/-- Keyboard interrupts one after the other since `out_position` was 1E0h. Between them the rest of
the program leaves it alone. -/
structure Typing where
  base : Nat
  keys : List Interrupted
  placed : ∀ key ∈ keys, key.base = base ∧ key.Reaches
  begin : ∀ key ∈ keys.head?, position base key.machine = 0x1E0
  next : keys.IsChain fun key key' => ∃ t, run (newInt09 key.data) key.machine = some t ∧
    position base key'.machine = position base t

def Typing.InRange (typing : Typing) : Prop :=
  ∀ key ∈ typing.keys, key.InTable ∧ key.OnScreen ∧ (key.code.getLsbD 7 → key.Silent)

section results

variable {start : Interrupted}

structure Entering (start : Interrupted) (e : Nat) (m : Machine) : Prop where
  seg : m.seg = start.seg
  esp : (m.reg .esp).toNat = e
  reg : ∀ r, r ≠ .esp → m.reg r = start.machine.reg r
  port : m.port = start.machine.port
  mem : ∀ x, ¬ (start.seg .ss).Holds x → m.mem x = start.machine.mem x

theorem total_push_entering (r : Reg) (room : 4 ≤ e) (top : e ≤ 0x100) :
    Total (Entering start e) (push (r32 r)) (Entering start (e - 4)) := by
  intro m entering
  have limit : (m.seg .ss).limit = 0xFF := by
    rw [entering.seg]
    exact congrArg Segment.limit start.stack
  have esp := entering.esp
  have pushed := push_pushed (o := r32 r) (m := m) rfl (by decide) (by omega) (by omega)
  refine ⟨_, pushed, entering.seg, ?_, ?_, entering.port, ?_⟩
  · exact (toNat_esp_pushed _ (by decide) (by omega)).trans (congrArg (· - 4) esp)
  · intro r' other
    exact (m.set_other _ other).trans (entering.reg r' other)
  · intro x outside
    have kept := (touches_push start (r32 r) m _ entering.seg pushed).2 x outside
    exact kept.trans (entering.mem x outside)

structure Tested (start : Interrupted) (m : Machine) : Prop where
  seg : m.seg = start.seg
  code : (m.reg .eax).extractLsb' 0 8 = start.code
  ebp : m.reg .ebp = start.machine.reg .ebp
  mem : ∀ x, ¬ (start.seg .ss).Holds x → m.mem x = start.machine.mem x

theorem run_readKey (start : Interrupted) :
    ∃ m, run readKey start.machine = some m ∧ Tested start m := by
  have room := start.room
  have top := start.top
  have enter : Entering start (start.machine.reg .esp).toNat start.machine :=
    ⟨rfl, rfl, fun _ _ => rfl, rfl, fun _ _ => rfl⟩
  obtain ⟨m, saved, entering⟩ := (total_push_entering .eax (by omega) top).cons
    ((total_push_entering .ebx (by omega) (by omega)).cons
      ((total_push_entering .ebp (by omega) (by omega)).cons
        (total_push_entering .edx (by omega) (by omega)).single)) _ enter
  refine ⟨_, run_join saved rfl, entering.seg, ?_, ?_, entering.mem⟩
  · exact BitVec.extractLsb'_append_eq_right.trans (congrFun entering.port 0x60)
  · exact entering.reg .ebp (by decide)

theorem passes_iff (tested : Tested start m) : passes m = true ↔ start.Prints := by
  rw [passes, alIs, alAbove, tested.code]
  simp [Interrupted.Prints, BitVec.ult]

/-- The index that `mov bp,ax` makes: the upper half is the interrupted code's. -/
def Interrupted.index (start : Interrupted) : BitVec 32 :=
  (start.machine.reg .ebp).extractLsb' 16 16 ++ (0#8 ++ start.code)

theorem run_indexKey (tested : Tested start m) : ∃ t, run indexKey m = some t ∧
    t.reg .ebp = start.index ∧ t.seg = start.seg ∧ t.mem = m.mem := by
  have clear : X86.xor ah ah m = some (m.set .eax
      ((m.reg .eax).extractLsb' 16 16 ++ (0#8 ++ (m.reg .eax).extractLsb' 0 8))) := by
    rw [← BitVec.xor_self]
    rfl
  refine ⟨_, run_step clear (run_step rfl rfl), ?_, tested.seg, rfl⟩
  rw [Machine.set_self, Machine.set_self, Machine.set_other _ _ (by decide), tested.ebp,
    tested.code]
  exact congrArg _ BitVec.extractLsb'_append_eq_right

theorem atLookup_of_prints (prints : start.Prints) : ∃ m, start.atLookup = some m ∧
    m.reg .ebp = start.index ∧ m.seg = start.seg ∧
    ∀ x, ¬ (start.seg .ss).Holds x → m.mem x = start.machine.mem x := by
  obtain ⟨s, read, tested⟩ := run_readKey start
  obtain ⟨m, done, ebp, seg, mem⟩ := run_indexKey tested
  refine ⟨m, ?_, ebp, seg, fun x outside => ?_⟩
  · rw [Interrupted.atLookup, read]
    simp only [Option.bind_eq_bind, Option.bind_some, (passes_iff tested).mpr prints]
    exact done
  · rw [mem]
    exact tested.mem x outside

theorem prints_of_atLookup (reached : start.atLookup = some m) : start.Prints := by
  obtain ⟨s, read, tested⟩ := run_readKey start
  rw [Interrupted.atLookup, read] at reached
  obtain ⟨passed, _⟩ := Option.ite_none_right_eq_some.mp reached
  exact (passes_iff tested).mp passed

theorem inTable_iff : start.InTable ↔ (start.Prints → start.index.toNat < 54) := by
  constructor
  · intro inTable prints
    obtain ⟨m, reached, ebp, _⟩ := atLookup_of_prints prints
    rw [← ebp]
    exact inTable m reached
  · intro inside m reached
    have prints := prints_of_atLookup reached
    obtain ⟨m', reached', ebp, _⟩ := atLookup_of_prints prints
    cases Option.some.inj (reached.symm.trans reached')
    rw [ebp]
    exact inside prints

theorem toNat_index : start.index.toNat =
    65536 * ((start.machine.reg .ebp).extractLsb' 16 16).toNat + start.code.toNat := by
  rw [Interrupted.index, toNat_append_eq, toNat_append_eq]
  simp

theorem position_congr {s t : Machine} (same : ∀ x, ¬ (start.seg .ss).Holds x → t.mem x = s.mem x) :
    position start.base t = position start.base s := by
  have stack := stack_end start
  have place : outPosition.toNat = 515 := rfl
  apply word_congr
  intro x low high
  apply same
  intro inside
  have last := inside.2
  omega

theorem run_fetchKey {m : Machine} (reaches : start.Reaches) (seg : m.seg = start.seg)
    (inTable : (m.reg .ebp).toNat < 54) : ∃ t, run (fetchKey start.data) m = some t ∧
      t.reg .ebx = position start.base m ∧ t.seg = start.seg ∧ t.mem = m.mem := by
  have table : asciiTable.toNat = 461 := rfl
  have place : outPosition.toNat = 515 := rfl
  have entry : (asciiTable + m.reg .ebp).toNat + 8 / 8 ≤ (m.seg start.data).limit + 1 := by
    apply fits_variable start seg
    rw [BitVec.toNat_add, table, place]
    omega
  have letter := mov_load dl (fun m => asciiTable + m.reg .ebp) entry
  have word := mov_load (m := m.set .edx ((m.reg .edx).extractLsb' 8 24 ++
      word m.mem 8 ((m.seg start.data).base + (asciiTable + m.reg .ebp).toNat)))
    ebx (fun _ => outPosition) (fits_variable start seg (by decide))
  refine ⟨_, run_step letter (run_step word rfl), ?_, seg, rfl⟩
  rw [Machine.set_self, Machine.set_seg, Machine.set_mem, seg, reaches]
  rfl

theorem atStore_of_prints (reaches : start.Reaches) (prints : start.Prints)
    (inTable : start.index.toNat < 54) : ∃ m, start.atStore = some m ∧
      m.reg .ebx = position start.base start.machine ∧ m.seg = start.seg ∧
      ∀ x, ¬ (start.seg .ss).Holds x → m.mem x = start.machine.mem x := by
  obtain ⟨s, reached, ebp, seg, mem⟩ := atLookup_of_prints prints
  obtain ⟨m, done, ebx, seg', mem'⟩ := run_fetchKey reaches seg (by rwa [ebp])
  refine ⟨m, ?_, ?_, seg', fun x outside => ?_⟩
  · rw [Interrupted.atStore, reached]
    exact done
  · rw [ebx, position_congr mem]
  · rw [mem', mem x outside]

theorem position_drawKey {m t : Machine} (reaches : start.Reaches) (seg : m.seg = start.seg)
    (done : run (drawKey start.data) m = some t) :
    position start.base t = m.reg .ebx + 2 := by
  simp only [drawKey, run_cons, Option.bind_eq_some_iff] at done
  obtain ⟨s₁, drawn, s₂, moved, s₃, stored, final⟩ := done
  obtain ⟨_, _, _, rfl⟩ := mov_store_cases drawn
  cases Option.some.inj moved
  obtain ⟨v, got, _, rfl⟩ := mov_store_cases stored
  cases Option.some.inj got
  cases Option.some.inj final
  have base : ((m.seg start.data).base) = start.base := by rw [seg, reaches]
  rw [← base]
  exact word_write _ _ _ rfl

theorem mem_drawKey {m t : Machine} (reaches : start.Reaches) (seg : m.seg = start.seg)
    (done : run (drawKey start.data) m = some t)
    (cell : x ≠ (start.seg .es).base + (m.reg .ebx).toNat)
    (outside : ¬ (start.base + outPosition.toNat ≤ x ∧ x < start.base + outPosition.toNat + 4)) :
    t.mem x = m.mem x := by
  simp only [drawKey, run_cons, Option.bind_eq_some_iff] at done
  obtain ⟨s₁, drawn, s₂, moved, s₃, stored, final⟩ := done
  obtain ⟨_, _, _, rfl⟩ := mov_store_cases drawn
  cases Option.some.inj moved
  obtain ⟨v, _, _, rfl⟩ := mov_store_cases stored
  cases Option.some.inj final
  have base : (m.seg start.data).base = start.base := by rw [seg, reaches]
  rw [← seg] at cell
  rw [← base] at outside
  refine (write_outside (by_contra fun within => outside ?_)).trans (write_outside ?_)
  · simp only [Machine.set_seg, Machine.put] at within
    omega
  · omega

theorem handled (done : run (newInt09 start.data) start.machine = some t) : ∃ s u,
    Tested start s ∧ testKey start.data s = some u ∧ u.mem = t.mem := by
  rw [newInt09_eq] at done
  simp only [run_append, Option.bind_eq_some_iff, run_single] at done
  obtain ⟨s, read, u, middle, final⟩ := done
  obtain ⟨s', read', tested⟩ := run_readKey start
  cases Option.some.inj (read.symm.trans read')
  refine ⟨s, u, tested, middle, ?_⟩
  funext x
  exact ((touches_acknowledge u t rfl final).2 x not_false).symm

theorem testKey_of_passes {s : Machine} (passed : passes s = true) (data : SegReg) :
    testKey data s = run (indexKey ++ (fetchKey data ++ drawKey data)) s := by
  simp only [passes, Bool.and_eq_true, Bool.not_eq_true'] at passed
  simp only [testKey, branch, run_single, passed, Bool.false_eq_true, if_false]

theorem handled_prints (reaches : start.Reaches) (prints : start.Prints)
    (inTable : start.index.toNat < 54)
    (done : run (newInt09 start.data) start.machine = some t) : ∃ m u,
      m.reg .ebx = position start.base start.machine ∧ m.seg = start.seg ∧
      (∀ x, ¬ (start.seg .ss).Holds x → m.mem x = start.machine.mem x) ∧
      run (drawKey start.data) m = some u ∧ u.mem = t.mem := by
  obtain ⟨s, u, tested, middle, mem⟩ := handled done
  obtain ⟨s₁, indexed, ebp, seg₁, mem₁⟩ := run_indexKey tested
  obtain ⟨s₂, fetched, ebx, seg₂, mem₂⟩ := run_fetchKey reaches seg₁ (by rwa [ebp])
  rw [testKey_of_passes ((passes_iff tested).mpr prints), run_append, indexed, Option.bind_some,
    run_append, fetched, Option.bind_some] at middle
  have same (x) (outside : ¬ (start.seg .ss).Holds x) : s₁.mem x = start.machine.mem x := by
    rw [mem₁, tested.mem x outside]
  refine ⟨s₂, u, ?_, seg₂, fun x outside => ?_, middle, mem⟩
  · rw [ebx, position_congr same]
  · rw [mem₂, same x outside]

theorem position_of_prints (reaches : start.Reaches) (prints : start.Prints)
    (inTable : start.index.toNat < 54)
    (done : run (newInt09 start.data) start.machine = some t) :
    position start.base t = position start.base start.machine + 2 := by
  obtain ⟨m, u, ebx, seg, _, drawn, mem⟩ := handled_prints reaches prints inTable done
  have moved := position_drawKey reaches seg drawn
  rwa [position, mem, ebx] at moved

theorem quiet (reaches : start.Reaches) (other : ¬ start.Prints)
    (done : run (newInt09 start.data) start.machine = some t)
    (outside : ¬ (start.seg .ss).Holds x) (apart : x ≠ start.base + escape.toNat) :
    t.mem x = start.machine.mem x := by
  obtain ⟨s, u, tested, middle, mem⟩ := handled done
  rw [← mem, ← tested.mem x outside]
  rw [testKey, branch] at middle
  split at middle
  · exact ((touches_leave start reaches).single s u tested.seg middle).2 x apart
  · rename_i enter
    rw [run_single, branch] at middle
    split at middle
    · cases Option.some.inj middle
      rfl
    · rename_i above
      have passed : passes s = true := by
        rw [passes, Bool.eq_false_iff.mpr enter, Bool.eq_false_iff.mpr above]
        rfl
      exact absurd ((passes_iff tested).mp passed) other

theorem position_of_quiet (reaches : start.Reaches) (other : ¬ start.Prints)
    (done : run (newInt09 start.data) start.machine = some t) :
    position start.base t = position start.base start.machine := by
  have stack := stack_end start
  have place : outPosition.toNat = 515 := rfl
  have flag : escape.toNat = 348 := rfl
  apply word_congr
  intro x low high
  apply quiet reaches other done
  · intro inside
    have last := inside.2
    omega
  · omega

def Interrupted.Types (start : Interrupted) (x : Nat) : Prop :=
  (start.seg .ss).Holds x ∨ x = start.base + escape.toNat ∨
    (start.base + outPosition.toNat ≤ x ∧ x < start.base + outPosition.toNat + 4) ∨
    x = (start.seg .es).base + (position start.base start.machine).toNat

theorem mem_newInt09 (reaches : start.Reaches) (inTable : start.InTable)
    (done : run (newInt09 start.data) start.machine = some t) (outside : ¬ start.Types x) :
    t.mem x = start.machine.mem x := by
  have away : ¬ (start.seg .ss).Holds x := fun inside => outside (Or.inl inside)
  by_cases prints : start.Prints
  · obtain ⟨m, u, ebx, seg, before, drawn, mem⟩ :=
      handled_prints reaches prints (inTable_iff.mp inTable prints) done
    rw [← mem, ← before x away]
    apply mem_drawKey reaches seg drawn
    · intro here
      rw [ebx] at here
      exact outside (Or.inr (Or.inr (Or.inr here)))
    · exact fun inside => outside (Or.inr (Or.inr (Or.inl inside)))
  · exact quiet reaches prints done away fun here => outside (Or.inr (Or.inl here))

theorem silent_of_quiet (reaches : start.Reaches) (other : ¬ start.Prints) : start.Silent := by
  intro t done
  have stack := stack_end start
  have video := video_base start
  have place : outPosition.toNat = 515 := rfl
  have flag : escape.toNat = 348 := rfl
  refine ⟨position_of_quiet reaches other done, fun x shown => quiet reaches other done ?_ ?_⟩
  · intro inside
    have last := inside.2
    have first : (start.seg .es).base ≤ x := shown.1
    omega
  · have first : (start.seg .es).base ≤ x := shown.1
    omega

theorem onScreen_iff (reaches : start.Reaches) (inTable : start.InTable) :
    start.OnScreen ↔ (start.Prints → (position start.base start.machine).toNat < 4000) := by
  constructor
  · intro onScreen prints
    obtain ⟨m, reached, ebx, _⟩ := atStore_of_prints reaches prints (inTable_iff.mp inTable prints)
    rw [← ebx]
    exact onScreen m reached
  · intro inside m reached
    obtain ⟨s, found, _⟩ := Option.bind_eq_some_iff.mp reached
    have prints := prints_of_atLookup found
    obtain ⟨m', reached', ebx, _⟩ :=
      atStore_of_prints reaches prints (inTable_iff.mp inTable prints)
    cases Option.some.inj (reached.symm.trans reached')
    rw [ebx]
    exact inside prints

theorem index_iff : start.index.toNat < 54 ↔
    start.code.toNat < 54 ∧ (start.machine.reg .ebp).extractLsb' 16 16 = 0 := by
  have zero : (0 : BitVec 16).toNat = 0 := rfl
  rw [toNat_index, ← BitVec.toNat_inj, zero]
  omega

end results

section runs

theorem counted_next {key key' : Interrupted} (reaches : key.Reaches) (inTable : key.InTable)
    (begin : position key.base key.machine = BitVec.ofNat 32 (480 + 2 * printed))
    (moved : ∃ t, run (newInt09 key.data) key.machine = some t ∧
      position key.base key'.machine = position key.base t) :
    position key.base key'.machine =
      BitVec.ofNat 32 (480 + 2 * (printed + if key.Prints then 1 else 0)) := by
  obtain ⟨t, done, position⟩ := moved
  rw [position]
  by_cases prints : key.Prints
  · rw [if_pos prints, position_of_prints reaches prints (inTable_iff.mp inTable prints) done,
      begin, Nat.mul_succ, ← Nat.add_assoc, BitVec.ofNat_add _ 2]
    rfl
  · rw [if_neg prints, position_of_quiet reaches prints done, begin, Nat.add_zero]

theorem onScreen_keys (printed : Nat) {keys : List Interrupted}
    (placed : ∀ key ∈ keys, key.base = base ∧ key.Reaches)
    (inTable : ∀ key ∈ keys, key.InTable)
    (begin : ∀ key ∈ keys.head?, position base key.machine = BitVec.ofNat 32 (480 + 2 * printed))
    (next : keys.IsChain fun key key' => ∃ t, run (newInt09 key.data) key.machine = some t ∧
      position base key'.machine = position base t) (few : printed ≤ 1760) :
    (∀ key ∈ keys, key.OnScreen) ↔ printed + keys.countP (fun key => decide key.Prints) ≤ 1760 := by
  induction keys generalizing printed with
  | nil => simpa using few
  | cons key keys ih =>
      obtain ⟨here, reaches⟩ := placed key List.mem_cons_self
      subst here
      have inKey := inTable key List.mem_cons_self
      have start := begin key rfl
      have place : (position key.base key.machine).toNat = 480 + 2 * printed := by
        rw [start, BitVec.toNat_ofNat]
        omega
      obtain ⟨moved, chain⟩ := List.isChain_cons.mp next
      have rest := ih (printed + if key.Prints then 1 else 0)
        (fun key' mem => placed key' (List.mem_cons_of_mem _ mem))
        (fun key' mem => inTable key' (List.mem_cons_of_mem _ mem))
        (fun key' first => counted_next reaches inKey start (moved key' first)) chain
      rw [List.forall_mem_cons, onScreen_iff reaches inKey, place, List.countP_cons]
      by_cases prints : key.Prints
      · simp only [prints, true_implies, decide_true, if_true] at rest ⊢
        constructor
        · rintro ⟨inside, tail⟩
          have later := (rest (by omega)).mp tail
          omega
        · intro few
          exact ⟨by omega, (rest (by omega)).mpr (by omega)⟩
      · simpa [prints] using rest (by simpa [prints] using few)

variable (typing : Typing)

def Typing.Fits : Prop :=
  (∀ key ∈ typing.keys, key.Prints → key.code.toNat < 54 ∧
    (key.machine.reg .ebp).extractLsb' 16 16 = 0) ∧
  typing.keys.countP (fun key => decide key.Prints) ≤ 1760

theorem inTable_keys : (∀ key ∈ typing.keys, key.InTable) ↔
    ∀ key ∈ typing.keys, key.Prints → key.code.toNat < 54 ∧
      (key.machine.reg .ebp).extractLsb' 16 16 = 0 := by
  simp only [inTable_iff, index_iff]

theorem silent_of_release {start : Interrupted} (reaches : start.Reaches) (inTable : start.InTable)
    (release : start.code.getLsbD 7) : start.Silent := by
  apply silent_of_quiet reaches
  intro prints
  have entry := (index_iff.mp (inTable_iff.mp inTable prints)).1
  have large : start.code.toNat ≥ 2 ^ 7 := Nat.ge_two_pow_of_testBit release
  omega

/-- The handler stays in range exactly when the keys do. -/
theorem inRange_iff : typing.InRange ↔ typing.Fits := by
  have screen (inTable) := onScreen_keys 0 typing.placed inTable typing.begin
    typing.next (by omega)
  simp only [Nat.zero_add] at screen
  rw [Typing.Fits, ← inTable_keys]
  constructor
  · intro inRange
    have inTable := fun key mem => (inRange key mem).1
    exact ⟨inTable, (screen inTable).mp fun key mem => (inRange key mem).2.1⟩
  · rintro ⟨inTable, few⟩ key mem
    exact ⟨inTable key mem, (screen inTable).mpr few key mem,
      silent_of_release (typing.placed key mem).2 (inTable key mem)⟩

end runs

def pressed (code : BitVec 8) : Interrupted :=
  { tick .cs (Or.inl rfl) with
    machine :=
      { (tick .cs (Or.inl rfl)).machine with
        mem := write (fun _ => 0) (0x10000 + outPosition.toNat) 0x1E0#32
        port := fun _ => code }
    stack := rfl
    video := rfl
    placed := Or.inl ⟨rfl, rfl⟩
    room := (tick .cs (Or.inl rfl)).room
    top := (tick .cs (Or.inl rfl)).top }

def typedF6 : Typing where
  base := 0x10000
  keys := [pressed 0x40]
  placed := by
    intro key mem
    cases List.mem_singleton.mp mem
    exact ⟨rfl, rfl⟩
  begin := by
    intro key first
    cases Option.some.inj first
    exact word_write _ _ _ rfl
  next := List.isChain_singleton _

theorem inRange_fails : ¬ typedF6.InRange := by
  intro inRange
  have entry := inTable_iff.mp (inRange (pressed 0x40) List.mem_cons_self).1 (by decide)
  exact absurd entry (by decide)

end OsUnix.ProtectedMode
