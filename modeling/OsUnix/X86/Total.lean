import OsUnix.X86.Frame
import OsUnix.X86.Words

/-!
# Code that runs to its end

Rules for code that does not fault.
-/

namespace OsUnix.X86

/-- From a state in `P` the code runs to its end without a fault and arrives in `Q`. -/
def Total (P : Machine → Prop) (f : Instr) (Q : Machine → Prop) : Prop :=
  ∀ s, P s → ∃ t, f s = some t ∧ Q t

section rules

variable {P Q R : Machine → Prop}

theorem Total.append (first : Total P (run block) Q) (second : Total Q (run block') R) :
    Total P (run (block ++ block')) R := by
  intro s start
  obtain ⟨u, head, middle⟩ := first s start
  obtain ⟨t, tail, final⟩ := second u middle
  refine ⟨t, ?_, final⟩
  rw [run_append, head]
  exact tail

theorem Total.single (total : Total P instr Q) : Total P (run [instr]) Q := by
  intro s start
  rw [run_single]
  exact total s start

theorem Total.nil : Total P (run []) P := fun s start => ⟨s, rfl, start⟩

theorem Total.cons (first : Total P instr Q) (rest : Total Q (run block) R) :
    Total P (run (instr :: block)) R :=
  Total.append first.single rest

theorem Total.branch (yes : Total P (run yesBlock) Q) (no : Total P (run noBlock) Q) :
    Total P (branch condition yesBlock noBlock) Q := by
  intro s start
  rw [X86.branch]
  split
  · exact yes s start
  · exact no s start

theorem rounds_succ (once : run body s = some t) (counter : t.reg .ecx = c) (n : Nat) :
    rounds body (n + 1) s =
      if c - 1 = 0 then some (t.set .ecx (c - 1)) else rounds body n (t.set .ecx (c - 1)) := by
  subst counter
  simp [X86.rounds, once]

theorem Total.rounds {I : BitVec 32 → Machine → Prop} (step : ∀ c, c ≠ 0 →
      Total (I c) (run body) fun t => t.reg .ecx = c ∧ I (c - 1) (t.set .ecx (c - 1)))
    (n : Nat) (nonzero : c ≠ 0) (bound : c.toNat ≤ n) : Total (I c) (rounds body n) (I 0) := by
  induction n generalizing c with
  | zero => exact absurd (BitVec.eq_of_toNat_eq (Nat.le_zero.mp bound)) nonzero
  | succ n ih =>
      intro s start
      obtain ⟨t, once, counter, next⟩ := step c nonzero s start
      by_cases last : c - 1 = 0
      · refine ⟨t.set .ecx (c - 1), ?_, last ▸ next⟩
        rw [rounds_succ once counter, if_pos last]
      · have less : (c - 1).toNat ≤ n := by
          have pred := toNat_pred nonzero
          omega
        obtain ⟨u, rest, final⟩ := ih last less _ next
        refine ⟨u, ?_, final⟩
        rw [rounds_succ once counter, if_neg last, rest]

theorem Total.loop {I : BitVec 32 → Machine → Prop} (step : ∀ c, c ≠ 0 →
      Total (I c) (run body) fun t => t.reg .ecx = c ∧ I (c - 1) (t.set .ecx (c - 1)))
    (nonzero : c ≠ 0) : Total (I c) (loop body) (I 0) :=
  Total.rounds step _ nonzero (Nat.le_of_lt c.isLt)

end rules

structure At (seg : SegReg → Segment) (r : Reg) (e : Nat) (v : BitVec 32) (m : Machine) : Prop where
  seg : m.seg = seg
  esp : (m.reg .esp).toNat = e
  reg : m.reg r = v

section known

variable {seg : SegReg → Segment} {r : Reg} {e : Nat} {v : BitVec 32}

theorem Kept.at (kept : Kept W s t) (free : Disjoint (whole r) W) (start : At seg r e v s) :
    At seg r e v t :=
  ⟨kept.seg.trans start.seg, kept.esp ▸ start.esp, (kept.reg free).trans start.reg⟩

theorem Total.of_frame (frame : Frame seg W f) (free : Disjoint (whole r) W)
    (enabled : ∀ s, At seg r e v s → ∃ t, f s = some t) :
    Total (At seg r e v) f (At seg r e v) := by
  intro s start
  obtain ⟨t, done⟩ := enabled s start
  exact ⟨t, done, (frame s t start.seg done).at free start⟩

theorem Total.mov {d o : Operand w} (writes : d.Writes P) (free : Disjoint (whole r) P)
    (read : ∀ s, At seg r e v s → ∃ x, o.get s = some x) :
    Total (At seg r e v) (mov d o) (At seg r e v) := by
  apply Total.of_frame (Frame.mov writes (Finset.Subset.refl P) o) free
  intro s start
  obtain ⟨x, got⟩ := read s start
  obtain ⟨r', y, _, set, _⟩ := writes x s
  exact ⟨_, by rw [X86.mov, got]; exact set⟩

theorem Total.update {d o : Operand w} (writes : d.Writes P) (free : Disjoint (whole r) P) (f)
    (old : ∀ s, ∃ x, d.get s = some x) (read : ∀ s, ∃ x, o.get s = some x) :
    Total (At seg r e v) (update f d o) (At seg r e v) := by
  apply Total.of_frame (Frame.update writes (Finset.Subset.refl P) f o) free
  intro s start
  obtain ⟨x, before⟩ := old s
  obtain ⟨y, got⟩ := read s
  obtain ⟨r', z, _, set, _⟩ := writes (f x y) s
  exact ⟨_, by rw [X86.update, before, got]; exact set⟩

theorem store_fits {m : Machine} (v : BitVec w)
    (fits : offset.toNat + w / 8 ≤ (m.seg s).limit + 1) : ∃ t, m.store s offset v = some t := by
  rw [Machine.store, Machine.address, if_pos fits]
  exact ⟨_, rfl⟩

theorem load_fits {m : Machine} (fits : offset.toNat + w / 8 ≤ (m.seg s).limit + 1) :
    ∃ v, m.load s offset w = some v := by
  rw [Machine.load, Machine.address, if_pos fits]
  exact ⟨_, rfl⟩

theorem Total.saved {o : Operand w} (saves : o.Saves P) (small : (seg .ss).limit + 1 < 2 ^ 32)
    (free : Disjoint (whole r) P) (other : r ≠ .esp)
    (room : w / 8 ≤ e) (top : e ≤ (seg .ss).limit + 1)
    (body : Total (At seg r (e - w / 8) v) (run block) (At seg r (e - w / 8) v')) :
    Total (At seg r e v) (run (saved o block)) (At seg r e v') := by
  intro s start
  obtain ⟨x, got⟩ := saves.get s
  have size := saves.size
  have below := (s.reg .esp).isLt
  have depth : (s.reg .esp - BitVec.ofNat 32 (w / 8)).toNat = e - w / 8 := by
    rw [BitVec.toNat_sub, BitVec.toNat_ofNat, start.esp]
    rw [start.esp] at below
    omega
  have fits : (s.reg .esp - BitVec.ofNat 32 (w / 8)).toNat + w / 8 ≤ (seg .ss).limit + 1 := by
    rw [depth]
    omega
  obtain ⟨s₁, pushed⟩ : ∃ s₁, push o s = some s₁ := by
    rw [push, got]
    apply store_fits
    rwa [Machine.set_seg, start.seg]
  obtain ⟨_, _, segs, _, back, regs, _⟩ := push_cases size (by rwa [start.seg]) pushed
  have lowered : (s₁.reg .esp).toNat = e - w / 8 := by
    rw [← depth, ← back, BitVec.add_sub_cancel]
  obtain ⟨t₁, ran, inner⟩ :=
    body s₁ ⟨segs.trans start.seg, lowered, (regs r other).trans start.reg⟩
  obtain ⟨y, loaded⟩ : ∃ y, t₁.load .ss (t₁.reg .esp) w = some y := by
    apply load_fits
    rw [inner.esp, inner.seg]
    omega
  obtain ⟨r', z, pointer, set, same⟩ :=
    saves.writes y (t₁.set .esp (t₁.reg .esp + BitVec.ofNat 32 (w / 8)))
  have popped : pop o t₁ =
      some ((t₁.set .esp (t₁.reg .esp + BitVec.ofNat 32 (w / 8))).set r' z) := by
    rw [pop, loaded]
    exact set
  refine ⟨_, run_saved.mpr ⟨s₁, t₁, pushed, ran, popped⟩, inner.seg, ?_, ?_⟩
  · rw [Machine.set_other _ _ pointer.symm, Machine.set_self, BitVec.toNat_add, inner.esp,
      BitVec.toNat_ofNat]
    rw [start.esp] at below
    omega
  · rw [Finset.disjoint_left] at free
    have low := same _ (free (Finset.mem_insert_self _ _))
    have high := same _ (free (Finset.mem_insert_of_mem (Finset.mem_singleton_self _)))
    rw [reg_eq_of_parts low high, Machine.set_other _ _ other, inner.reg]

end known

theorem saved_returns {o : Operand w} (saves : o.Saves P) (got : o.get s = some v)
    (room : w / 8 ≤ (s.reg .esp).toNat) (top : (s.reg .esp).toNat ≤ (s.seg .ss).limit + 1)
    (ran : run block (s.pushed v) = some u) (seg : u.seg = s.seg)
    (esp : u.reg .esp = s.reg .esp - BitVec.ofNat 32 (w / 8))
    (kept : word u.mem w ((s.seg .ss).base + ((s.reg .esp).toNat - w / 8)) = v) :
    ∃ t, run (saved o block) s = some t ∧ t.seg = s.seg ∧ t.mem = u.mem ∧
      t.reg .esp = s.reg .esp ∧ (∀ p ∈ P, part t p = part s p) ∧
      ∀ p ∉ P, p.1 ≠ .esp → part t p = part u p := by
  have size : w / 8 < 2 ^ 32 := by
    have bound := saves.size
    omega
  have depth : (s.reg .esp - BitVec.ofNat 32 (w / 8)).toNat = (s.reg .esp).toNat - w / 8 :=
    toNat_esp_pushed v size room
  have pushed := push_pushed got size room top
  have raised : u.reg .esp + BitVec.ofNat 32 (w / 8) = s.reg .esp := by
    rw [esp, BitVec.sub_add_cancel]
  obtain ⟨r, x, other, set, outer⟩ := saves.writes v (u.set .esp (s.reg .esp))
  have popped : pop o u = some ((u.set .esp (s.reg .esp)).set r x) := by
    rw [pop_eq (by rw [esp, depth, seg]; omega), raised, esp, depth, seg, kept, set]
  refine ⟨_, run_saved.mpr ⟨_, u, pushed, ran, popped⟩, seg, rfl, ?_, ?_, ?_⟩
  · rw [Machine.set_other _ _ other.symm, Machine.set_self]
  · intro p mem
    exact saves.restores got set p mem
  · intro p outside pointer
    rw [outer p outside, part_set_other pointer]

end OsUnix.X86
