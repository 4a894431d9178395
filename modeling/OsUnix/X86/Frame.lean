import OsUnix.X86.Machine
import Mathlib.Data.Finset.Union
import Mathlib.Data.Finset.SDiff

/-!
# What code leaves as it was

The parts of the registers that a piece of code writes, and what a `push` and a `pop` around it
restore of them.
-/

namespace OsUnix.X86

inductive Half
  | low | high
  deriving DecidableEq, Repr

abbrev Part := Reg × Half

def part (m : Machine) : Part → BitVec 16
  | (r, .low) => (m.reg r).extractLsb' 0 16
  | (r, .high) => (m.reg r).extractLsb' 16 16

def whole (r : Reg) : Finset Part := {(r, .low), (r, .high)}

theorem glue (v : BitVec 32) : v.extractLsb' 16 16 ++ v.extractLsb' 0 16 = v :=
  @BitVec.extractLsb'_append_extractLsb' 16 16 v

theorem reg_eq_of_parts {s t : Machine} (low : part t (r, .low) = part s (r, .low))
    (high : part t (r, .high) = part s (r, .high)) : t.reg r = s.reg r := by
  simp only [part] at low high
  rw [← glue (t.reg r), ← glue (s.reg r), low, high]

theorem part_eq_of_reg {s t : Machine} (same : t.reg p.1 = s.reg p.1) : part t p = part s p := by
  obtain ⟨r, _ | _⟩ := p <;> exact congrArg (BitVec.extractLsb' _ 16) same

theorem part_set_other {m : Machine} {v : BitVec 32} (other : p.1 ≠ r) :
    part (m.set r v) p = part m p :=
  part_eq_of_reg (m.set_other v other)

/-- What a piece of code that writes the parts `W` leaves as it was: the other parts, the segment
registers and the bytes from the top of the stack upward. -/
structure Kept (W : Finset Part) (s t : Machine) : Prop where
  seg : t.seg = s.seg
  esp : t.reg .esp = s.reg .esp
  part : ∀ p ∉ W, part t p = part s p
  stack : ∀ x, (s.seg .ss).base + (s.reg .esp).toNat ≤ x →
    x ≤ (s.seg .ss).base + (s.seg .ss).limit → t.mem x = s.mem x

theorem Kept.refl (W : Finset Part) (s : Machine) : Kept W s s :=
  ⟨rfl, rfl, fun _ _ => rfl, fun _ _ _ => rfl⟩

theorem Kept.trans (first : Kept W s t) (second : Kept W t u) : Kept W s u where
  seg := second.seg.trans first.seg
  esp := second.esp.trans first.esp
  part p outside := (second.part p outside).trans (first.part p outside)
  stack x low high := by
    rw [second.stack x (by rwa [first.seg, first.esp]) (by rwa [first.seg]),
      first.stack x low high]

theorem Kept.mono (kept : Kept W s t) (sub : W ⊆ W') : Kept W' s t where
  seg := kept.seg
  esp := kept.esp
  part p outside := kept.part p (fun mem => outside (sub mem))
  stack := kept.stack

theorem Kept.reg (kept : Kept W s t) (outside : Disjoint (whole r) W) : t.reg r = s.reg r := by
  rw [Finset.disjoint_left] at outside
  exact reg_eq_of_parts (kept.part _ (outside (by simp [whole])))
    (kept.part _ (outside (by simp [whole])))

def Frame (seg : SegReg → Segment) (W : Finset Part) (f : Instr) : Prop :=
  ∀ s t, s.seg = seg → f s = some t → Kept W s t

section rules

variable {seg : SegReg → Segment} {W : Finset Part}

theorem Frame.mono (frame : Frame seg W f) (sub : W ⊆ W') : Frame seg W' f :=
  fun s t segments done => (frame s t segments done).mono sub

theorem Frame.nil : Frame seg W (run []) := by
  intro s t _ done
  cases Option.some.inj done
  exact Kept.refl W s

theorem Frame.cons (first : Frame seg W instr) (rest : Frame seg W (run block)) :
    Frame seg W (run (instr :: block)) := by
  intro s t segments done
  obtain ⟨u, head, tail⟩ := Option.bind_eq_some_iff.mp done
  have before := first s u segments head
  exact before.trans (rest u t (before.seg.trans segments) tail)

theorem Frame.single (frame : Frame seg W instr) : Frame seg W (run [instr]) :=
  frame.cons Frame.nil

theorem Frame.append (first : Frame seg W (run block)) (second : Frame seg W (run block')) :
    Frame seg W (run (block ++ block')) := by
  intro s t segments done
  rw [run_append] at done
  obtain ⟨u, head, tail⟩ := Option.bind_eq_some_iff.mp done
  have before := first s u segments head
  exact before.trans (second u t (before.seg.trans segments) tail)

theorem Frame.branch (yes : Frame seg W (run yesBlock)) (no : Frame seg W (run noBlock)) :
    Frame seg W (branch condition yesBlock noBlock) := by
  intro s t segments done
  rw [X86.branch] at done
  split at done
  · exact yes s t segments done
  · exact no s t segments done

theorem Kept.set (other : r ≠ .esp) (same : ∀ p ∉ W, X86.part (s.set r v) p = X86.part s p) :
    Kept W s (s.set r v) :=
  ⟨rfl, s.set_other v other.symm, same, fun _ _ _ => rfl⟩

theorem Kept.set_whole (other : r ≠ .esp) (sub : whole r ⊆ W) : Kept W s (s.set r v) := by
  apply Kept.set other
  rintro ⟨r', h⟩ outside
  apply part_set_other
  rintro rfl
  apply outside (sub _)
  cases h <;> simp [whole]

theorem Frame.rounds (body : Frame seg W (run block)) (counter : whole .ecx ⊆ W) (n : Nat) :
    Frame seg W (rounds block n) := by
  induction n with
  | zero =>
      intro s t _ done
      cases done
  | succ n ih =>
      intro s t segments done
      obtain ⟨u, once, done⟩ := Option.bind_eq_some_iff.mp done
      dsimp only at done
      have first := (body s u segments once).trans
        (Kept.set_whole (v := u.reg .ecx - 1) (by decide) counter)
      split at done
      · cases Option.some.inj done
        exact first
      · exact first.trans (ih _ t (first.seg.trans segments) done)

theorem Frame.loop (body : Frame seg W (run block)) (counter : whole .ecx ⊆ W) :
    Frame seg W (loop block) :=
  Frame.rounds body counter _

end rules

def Operand.Writes (o : Operand w) (P : Finset Part) : Prop :=
  ∀ v m, ∃ r x, r ≠ .esp ∧ o.set v m = some (m.set r x) ∧
    ∀ p ∉ P, part (m.set r x) p = part m p

theorem writes_r32 (other : r ≠ .esp) : (r32 r).Writes (whole r) := by
  intro v m
  refine ⟨r, v, other, rfl, ?_⟩
  rintro ⟨r', h⟩ outside
  apply part_set_other
  rintro rfl
  apply outside
  cases h <;> simp [whole]

theorem writes_low {o : Operand w} (other : r ≠ .esp) (x : BitVec w → BitVec 32 → BitVec 32)
    (set : ∀ v m, o.set v m = some (m.set r (x v (m.reg r))))
    (high : ∀ v u, (x v u).extractLsb' 16 16 = u.extractLsb' 16 16) : o.Writes {(r, .low)} := by
  intro v m
  refine ⟨r, x v (m.reg r), other, set v m, ?_⟩
  rintro ⟨r', h⟩ outside
  by_cases same : r' = r
  · subst same
    cases h with
    | low => simp at outside
    | high => simp only [part, Machine.set_self, high]
  · exact part_set_other same

theorem writes_r16 (other : r ≠ .esp) : (r16 r).Writes {(r, .low)} :=
  writes_low other (fun v u => u.extractLsb' 16 16 ++ v) (fun _ _ => rfl)
    fun _ _ => BitVec.extractLsb'_append_eq_left

theorem writes_high8 (other : r ≠ .esp) : (high8 r).Writes {(r, .low)} :=
  writes_low other (fun v u => u.extractLsb' 16 16 ++ (v ++ u.extractLsb' 0 8)) (fun _ _ => rfl)
    fun _ _ => BitVec.extractLsb'_append_eq_left

theorem high_of_low8 (v : BitVec 8) (u : BitVec 32) :
    (u.extractLsb' 8 24 ++ v).extractLsb' 16 16 = u.extractLsb' 16 16 := by
  rw [BitVec.extractLsb'_append_eq_of_le (by decide)]
  apply BitVec.eq_of_getLsbD_eq
  intro j inside
  have deep : 8 + j < 24 := by omega
  simp [inside, deep, ← Nat.add_assoc]

theorem writes_low8 (other : r ≠ .esp) : (low8 r).Writes {(r, .low)} :=
  writes_low other (fun v u => u.extractLsb' 8 24 ++ v) (fun _ _ => rfl) high_of_low8

structure Operand.Saves (o : Operand w) (P : Finset Part) : Prop where
  writes : o.Writes P
  get : ∀ m, ∃ v, o.get m = some v
  restores : ∀ {s m t v}, o.get s = some v → o.set v m = some t → ∀ p ∈ P, part t p = part s p
  bytes : 8 * (w / 8) = w
  size : w ≤ 32

theorem saves_r32 (other : r ≠ .esp) : (r32 r).Saves (whole r) where
  writes := writes_r32 other
  get _ := ⟨_, rfl⟩
  restores := by
    intro s m t v got stored p mem
    cases Option.some.inj got
    cases Option.some.inj stored
    have reg : p.1 = r := by
      simp only [whole, Finset.mem_insert, Finset.mem_singleton] at mem
      rcases mem with rfl | rfl <;> rfl
    apply part_eq_of_reg
    rw [reg, Machine.set_self]
  bytes := rfl
  size := Nat.le_refl 32

theorem saves_r16 (other : r ≠ .esp) : (r16 r).Saves {(r, .low)} where
  writes := writes_r16 other
  get _ := ⟨_, rfl⟩
  restores := by
    intro s m t v got stored p mem
    cases Option.some.inj got
    cases Option.some.inj stored
    cases Finset.mem_singleton.mp mem
    simp only [part, Machine.set_self]
    exact BitVec.extractLsb'_append_eq_right
  bytes := rfl
  size := by decide

section instructions

variable {seg : SegReg → Segment} {W : Finset Part}

theorem Operand.Writes.kept {d : Operand w} (writes : d.Writes P) (sub : P ⊆ W)
    (stored : d.set v s = some t) : Kept W s t := by
  obtain ⟨r, x, other, set, same⟩ := writes v s
  cases Option.some.inj (stored.symm.trans set)
  exact Kept.set other fun p outside => same p (fun mem => outside (sub mem))

theorem Frame.mov {d : Operand w} (writes : d.Writes P) (sub : P ⊆ W) (s : Operand w) :
    Frame seg W (mov d s) := by
  intro m t _ done
  obtain ⟨v, _, stored⟩ := Option.bind_eq_some_iff.mp done
  exact writes.kept sub stored

theorem Frame.update {d : Operand w} (writes : d.Writes P) (sub : P ⊆ W) (f) (s : Operand w) :
    Frame seg W (update f d s) := by
  intro m t _ done
  obtain ⟨old, _, done⟩ := Option.bind_eq_some_iff.mp done
  obtain ⟨v, _, stored⟩ := Option.bind_eq_some_iff.mp done
  exact writes.kept sub stored

theorem Frame.input {d : Operand 8} (writes : d.Writes P) (sub : P ⊆ W) (port : BitVec 16) :
    Frame seg W (input d port) := fun _ _ _ done => writes.kept sub done

theorem Frame.output (port : BitVec 16) (o : Operand 8) : Frame seg W (output port o) := by
  intro s t _ done
  obtain ⟨v, _, sent⟩ := Option.bind_eq_some_iff.mp done
  cases Option.some.inj sent
  exact ⟨rfl, rfl, fun _ _ => rfl, fun _ _ _ => rfl⟩

theorem store_cases {m : Machine} {v : BitVec w} (stored : m.store s offset v = some t) :
    offset.toNat + w / 8 ≤ (m.seg s).limit + 1 ∧
      t = { m with mem := write m.mem ((m.seg s).base + offset.toNat) v } := by
  obtain ⟨a, placed, made⟩ := Option.bind_eq_some_iff.mp stored
  obtain ⟨inside, at_a⟩ := Option.ite_none_right_eq_some.mp placed
  cases Option.some.inj at_a
  cases Option.some.inj made
  exact ⟨inside, rfl⟩

theorem Frame.store {offset : Machine → BitVec 32} (w : Nat)
    (apart : ∀ m : Machine, m.seg = seg →
      (seg .ss).base + (seg .ss).limit < (seg s).base + (offset m).toNat ∨
      (seg s).base + (offset m).toNat + w / 8 ≤ (seg .ss).base) (o : Operand w) :
    Frame seg W (X86.mov (memory w s offset) o) := by
  intro m t segments done
  obtain ⟨v, _, stored⟩ := Option.bind_eq_some_iff.mp done
  obtain ⟨_, rfl⟩ := store_cases stored
  refine ⟨rfl, rfl, fun _ _ => rfl, fun x low high => write_outside ?_⟩
  have beside := apart m segments
  rw [segments] at low high ⊢
  omega

end instructions

def saved (o : Operand w) (body : List Instr) : List Instr := [push o] ++ body ++ [pop o]

theorem run_saved : run (saved o body) s = some t ↔
    ∃ s₁ t₁, push o s = some s₁ ∧ run body s₁ = some t₁ ∧ pop o t₁ = some t := by
  rw [saved, run_append, run_append, run_single, Option.bind_assoc, Option.bind_eq_some_iff]
  simp only [Option.bind_eq_some_iff, run_single]
  constructor
  · rintro ⟨s₁, pushed, t₁, ran, popped⟩
    exact ⟨s₁, t₁, pushed, ran, popped⟩
  · rintro ⟨s₁, t₁, pushed, ran, popped⟩
    exact ⟨s₁, pushed, t₁, ran, popped⟩

theorem push_cases {o : Operand w} (size : w ≤ 32) (small : (s.seg .ss).limit + 1 < 2 ^ 32)
    (pushed : push o s = some t) : ∃ v, o.get s = some v ∧ t.seg = s.seg ∧
      (t.reg .esp).toNat + w / 8 = (s.reg .esp).toNat ∧
      t.reg .esp + BitVec.ofNat 32 (w / 8) = s.reg .esp ∧
      (∀ r, r ≠ .esp → t.reg r = s.reg r) ∧
      t.mem = write s.mem ((s.seg .ss).base + (t.reg .esp).toNat) v := by
  obtain ⟨v, got, stored⟩ := Option.bind_eq_some_iff.mp pushed
  obtain ⟨inside, rfl⟩ := store_cases stored
  have top : ∀ x : BitVec 32, (x - BitVec.ofNat 32 (w / 8)).toNat + w / 8 < 2 ^ 32 →
      (x - BitVec.ofNat 32 (w / 8)).toNat + w / 8 = x.toNat := by
    intro x bound
    have below := x.isLt
    rw [BitVec.toNat_sub, BitVec.toNat_ofNat] at bound ⊢
    omega
  rw [Machine.set_seg] at inside
  refine ⟨v, got, rfl, ?_, ?_, fun r other => s.set_other _ other, ?_⟩
  · rw [Machine.set_self]
    exact top _ (Nat.lt_of_le_of_lt inside small)
  · rw [Machine.set_self, BitVec.sub_add_cancel]
  · rw [Machine.set_self, Machine.set_seg, Machine.set_mem]

section saving

variable {seg : SegReg → Segment} {W : Finset Part}

theorem Frame.saved {o : Operand w} (saves : o.Saves P) (small : (seg .ss).limit + 1 < 2 ^ 32)
    (frame : Frame seg W (run body)) : Frame seg (W \ P) (run (saved o body)) := by
  intro s t segments done
  obtain ⟨s₁, t₁, pushed, ran, popped⟩ := run_saved.mp done
  obtain ⟨v, got, segs, below, back, regs, mem⟩ := push_cases saves.size (by rwa [segments]) pushed
  have inner := frame s₁ t₁ (segs.trans segments) ran
  obtain ⟨u, loaded, stored⟩ := Option.bind_eq_some_iff.mp popped
  obtain ⟨a, placed, made⟩ := Option.bind_eq_some_iff.mp loaded
  obtain ⟨inside, at_a⟩ := Option.ite_none_right_eq_some.mp placed
  cases Option.some.inj at_a
  rw [inner.seg, inner.esp, segs] at inside made
  have same : u = v := by
    have kept : read t₁.mem ((s.seg .ss).base + (s₁.reg .esp).toNat) (w / 8) =
        read s₁.mem ((s.seg .ss).base + (s₁.reg .esp).toNat) (w / 8) := by
      apply read_congr
      intro x low high
      apply inner.stack
      · rwa [segs]
      · rw [segs]
        omega
    cases Option.some.inj made
    rw [kept, mem]
    exact read_write _ _ _ saves.bytes
  subst same
  obtain ⟨r, x, other, set, outer⟩ :=
    saves.writes u (t₁.set .esp (t₁.reg .esp + BitVec.ofNat 32 (w / 8)))
  have result := Option.some.inj (stored.symm.trans set)
  have esp : t.reg .esp = s.reg .esp := by
    rw [result, Machine.set_other _ _ other.symm, Machine.set_self, inner.esp, back]
  refine ⟨?_, esp, ?_, ?_⟩
  · rw [result]
    exact inner.seg.trans segs
  · intro p outside
    by_cases saving : p ∈ P
    · exact saves.restores got stored p saving
    · have unwritten : p ∉ W := fun mem => outside (Finset.mem_sdiff.mpr ⟨mem, saving⟩)
      by_cases pointer : p.1 = .esp
      · apply part_eq_of_reg
        rw [pointer, esp]
      · rw [result, outer p saving, part_set_other pointer, inner.part p unwritten]
        exact part_eq_of_reg (regs p.1 pointer)
  · intro x low high
    have kept : t.mem x = s₁.mem x := by
      rw [result]
      apply inner.stack x
      · rw [segs]
        omega
      · rwa [segs]
    rw [kept, mem]
    exact write_outside (Or.inr (by omega))

end saving

end OsUnix.X86
