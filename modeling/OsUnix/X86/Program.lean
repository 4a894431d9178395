import OsUnix.X86.Frame
import OsUnix.X86.Words

/-!
# Code with jumps

Lines of code, and runs in surroundings that may change the machine after every line.
-/

namespace OsUnix.X86

/-- A line of code with jumps. A comparison is one line with the conditional jump after it. -/
inductive Line
  | plain (instr : Instr)
  | jump (condition : Machine → Option Bool) (target : Nat)
  | loop (target : Nat)

namespace Machine

def setSeg (m : Machine) (s : SegReg) (d : Segment) : Machine :=
  { m with seg := fun s' => if s' = s then d else m.seg s' }

theorem setSeg_self (m : Machine) (s : SegReg) (d : Segment) : (m.setSeg s d).seg s = d :=
  if_pos rfl

theorem setSeg_other (m : Machine) (d : Segment) (other : s' ≠ s) :
    (m.setSeg s d).seg s' = m.seg s' :=
  if_neg other

end Machine

def selector (gdt : BitVec 16 → Option Segment) (s : SegReg) (w : Nat) : Operand w where
  get m := some ((m.seg s).selector.setWidth w)
  set v m := do
    let d ← gdt (v.setWidth 16)
    return m.setSeg s d

/-- EDX:EAX by the operand. A quotient over 32 bits is a fault, as is the divisor 0. -/
def div (o : Operand 32) : Instr := fun m => do
  let d ← o.get m
  let n := (m.reg .edx ++ m.reg .eax).toNat
  if d = 0 ∨ 2 ^ 32 ≤ n / d.toNat then none else
    return (m.set .eax (BitVec.ofNat 32 (n / d.toNat))).set .edx (BitVec.ofNat 32 (n % d.toNat))

structure Point where
  pc : Nat
  machine : Machine

def Line.step : Line → Point → Option Point
  | .plain instr, p => do
      let m ← instr p.machine
      return ⟨p.pc + 1, m⟩
  | .jump condition target, p => do
      let jumps ← condition p.machine
      return ⟨if jumps then target else p.pc + 1, p.machine⟩
  | .loop target, p =>
      let m := p.machine.set .ecx (p.machine.reg .ecx - 1)
      return ⟨if m.reg .ecx = 0 then p.pc + 1 else target, m⟩

/-- `k` steps that begin after `n` others. What the surroundings make of the machine follows each
step. -/
def execute (program : List Line) (around : Nat → Machine → Machine) :
    Nat → Nat → Point → Option Point
  | _, 0, p => some p
  | n, k + 1, p => do
      let line ← program[p.pc]?
      let q ← line.step p
      execute program around (n + 1) k ⟨q.pc, around n q.machine⟩

/-- `t` is `s` but for registers outside `R` and bytes in `T`; from the top of the stack upward the
stack is the same. -/
structure Undisturbed (R : Reg → Prop) (T : Nat → Prop) (s t : Machine) : Prop where
  seg : t.seg = s.seg
  esp : t.reg .esp = s.reg .esp
  reg : ∀ r, R r → t.reg r = s.reg r
  mem : ∀ x, ¬ T x → t.mem x = s.mem x
  stack : ∀ x, (s.seg .ss).base + (s.reg .esp).toNat ≤ x →
    x ≤ (s.seg .ss).base + (s.seg .ss).limit → t.mem x = s.mem x

variable {R : Reg → Prop} {T : Nat → Prop}

theorem Undisturbed.refl (s : Machine) : Undisturbed R T s s :=
  ⟨rfl, rfl, fun _ _ => rfl, fun _ _ => rfl, fun _ _ _ => rfl⟩

theorem Undisturbed.trans (first : Undisturbed R T s t) (second : Undisturbed R T t u) :
    Undisturbed R T s u where
  seg := second.seg.trans first.seg
  esp := second.esp.trans first.esp
  reg r kept := (second.reg r kept).trans (first.reg r kept)
  mem x kept := (second.mem x kept).trans (first.mem x kept)
  stack x low high := by
    rw [second.stack x (by rwa [first.seg, first.esp]) (by rwa [first.seg]),
      first.stack x low high]

theorem Undisturbed.mono {T' : Nat → Prop} (same : Undisturbed R T s t) (wider : ∀ x, T x → T' x) :
    Undisturbed R T' s t where
  seg := same.seg
  esp := same.esp
  reg := same.reg
  mem x outside := same.mem x fun inside => outside (wider x inside)
  stack := same.stack

theorem Undisturbed.of_handler {m : Machine} {frame : BitVec 96}
    (room : 12 ≤ (m.reg .esp).toNat) (kept : Kept W (m.pushed frame) t)
    (free : ∀ r, R r → r ≠ .esp → Disjoint (whole r) W)
    (mem : ∀ x, ¬ T x → t.mem x = (m.pushed frame).mem x)
    (saved : ∀ x, (m.seg .ss).base + ((m.reg .esp).toNat - 12) ≤ x →
      x < (m.seg .ss).base + (m.reg .esp).toNat → T x) :
    Undisturbed R T m (t.set .esp (t.reg .esp + 12)) := by
  have depth : ((m.pushed frame).reg .esp).toNat = (m.reg .esp).toNat - 12 :=
    toNat_esp_pushed frame (by decide) room
  have esp : t.reg .esp + 12 = m.reg .esp := by
    rw [kept.esp]
    exact BitVec.sub_add_cancel _ _
  have above (x) (outside : x < (m.seg .ss).base + ((m.reg .esp).toNat - 12) ∨
      (m.seg .ss).base + ((m.reg .esp).toNat - 12) + 12 ≤ x) :
      (m.pushed frame).mem x = m.mem x := write_outside outside
  refine ⟨kept.seg, ?_, ?_, ?_, ?_⟩
  · rw [Machine.set_self, esp]
  · intro r held
    by_cases pointer : r = .esp
    · rw [pointer, Machine.set_self, esp]
    · rw [Machine.set_other _ _ pointer, kept.reg (free r held pointer)]
      exact m.set_other _ pointer
  · intro x outside
    refine (mem x outside).trans (above x ?_)
    by_contra within
    exact outside (saved x (by omega) (by omega))
  · intro x low high
    refine (kept.stack x ?_ high).trans (above x (by omega))
    rw [depth]
    exact Nat.le_trans (Nat.add_le_add_left (Nat.sub_le _ _) _) low

def Operand.Reads (R : Reg → Prop) (T : Nat → Prop) (o : Operand w) (s : Machine) : Prop :=
  ∀ t, Undisturbed R T s t → o.get t = o.get s

def Respects (R : Reg → Prop) (T : Nat → Prop) (f : Instr) (s : Machine) : Prop :=
  ∀ s' t, f s = some s' → Undisturbed R T s t → ∃ t', f t = some t' ∧ Undisturbed R T s' t'

theorem Undisturbed.set (same : Undisturbed R T s t) (other : r ≠ .esp) (v : BitVec 32) :
    Undisturbed R T (s.set r v) (t.set r v) where
  seg := same.seg
  esp := by
    rw [s.set_other v other.symm, t.set_other v other.symm]
    exact same.esp
  reg r' kept := by
    by_cases here : r' = r
    · rw [here, s.set_self, t.set_self]
    · rw [s.set_other v here, t.set_other v here]
      exact same.reg r' kept
  mem := same.mem
  stack x low high := by
    rw [s.set_other v other.symm] at low
    exact same.stack x low high

theorem Undisturbed.raise (same : Undisturbed R T s t) {top : BitVec 32}
    (higher : (s.reg .esp).toNat ≤ top.toNat) :
    Undisturbed R T (s.set .esp top) (t.set .esp top) where
  seg := same.seg
  esp := by rw [s.set_self, t.set_self]
  reg r kept := by
    by_cases here : r = .esp
    · rw [here, s.set_self, t.set_self]
    · rw [s.set_other _ here, t.set_other _ here]
      exact same.reg r kept
  mem := same.mem
  stack x low high := by
    rw [s.set_self] at low
    exact same.stack x (Nat.le_trans (Nat.add_le_add_left higher _) low) high

theorem Undisturbed.put (same : Undisturbed R T s t) (a : Nat) (v : BitVec w) :
    Undisturbed R T (s.put a v) (t.put a v) where
  seg := same.seg
  esp := same.esp
  reg := same.reg
  mem x kept := by
    simp only [Machine.put, write]
    split
    · rfl
    · exact same.mem x kept
  stack x low high := by
    simp only [Machine.put, write]
    split
    · rfl
    · exact same.stack x low high

def Operand.Carries (R : Reg → Prop) (T : Nat → Prop) (d : Operand w) (s : Machine) : Prop :=
  ∀ v, Respects R T (d.set v) s

section operands

variable {s : Machine}

theorem reads_imm (v : BitVec w) : (imm v).Reads R T s := fun _ _ => rfl

theorem reads_part {o : Operand w} (part : BitVec 32 → BitVec w)
    (get : ∀ m : Machine, o.get m = some (part (m.reg r))) (held : R r) : o.Reads R T s := by
  intro t same
  rw [get, get, same.reg r held]

theorem carries_part {d : Operand w} (whole : BitVec w → BitVec 32 → BitVec 32)
    (set : ∀ v (m : Machine), d.set v m = some (m.set r (whole v (m.reg r)))) (held : R r)
    (other : r ≠ .esp) : d.Carries R T s := by
  intro v s' t done same
  rw [set] at done
  cases Option.some.inj done
  refine ⟨_, set v t, ?_⟩
  rw [same.reg r held]
  exact same.set other _

theorem reads_selector : (selector gdt d w).Reads R T s := by
  intro t same
  simp only [selector, same.seg]

theorem carries_selector (other : d ≠ .ss) : (selector gdt d w).Carries R T s := by
  intro v s' t done same
  obtain ⟨segment, found, made⟩ := Option.bind_eq_some_iff.mp done
  cases Option.some.inj made
  refine ⟨t.setSeg d segment, Option.bind_eq_some_iff.mpr ⟨segment, found, rfl⟩, ?_⟩
  refine ⟨?_, same.esp, same.reg, same.mem, ?_⟩
  · simp only [Machine.setSeg, same.seg]
  · rw [s.setSeg_other segment other.symm]
    exact same.stack

theorem reads_r32 (held : R r) : (r32 r).Reads R T s := reads_part id (fun _ => rfl) held

theorem reads_low8 (held : R r) : (low8 r).Reads R T s :=
  reads_part (BitVec.extractLsb' 0 8) (fun _ => rfl) held

theorem reads_high8 (held : R r) : (high8 r).Reads R T s :=
  reads_part (BitVec.extractLsb' 8 8) (fun _ => rfl) held

theorem reads_r16 (held : R r) : (r16 r).Reads R T s :=
  reads_part (BitVec.extractLsb' 0 16) (fun _ => rfl) held

theorem carries_r32 (held : R r) (other : r ≠ .esp) : (r32 r).Carries R T s :=
  carries_part (fun v _ => v) (fun _ _ => rfl) held other

theorem carries_r16 (held : R r) (other : r ≠ .esp) : (r16 r).Carries R T s :=
  carries_part (fun v u => u.extractLsb' 16 16 ++ v) (fun _ _ => rfl) held other

theorem carries_low8 (held : R r) (other : r ≠ .esp) : (low8 r).Carries R T s :=
  carries_part (fun v u => u.extractLsb' 8 24 ++ v) (fun _ _ => rfl) held other

theorem carries_high8 (held : R r) (other : r ≠ .esp) : (high8 r).Carries R T s :=
  carries_part (fun v u => u.extractLsb' 16 16 ++ (v ++ u.extractLsb' 0 8)) (fun _ _ => rfl) held
    other

theorem reads_at (held : R r)
    (kept : ∀ x, (s.seg d).base + (s.reg r).toNat ≤ x →
      x < (s.seg d).base + (s.reg r).toNat + w / 8 → ¬ T x) :
    (memory w d fun m => m.reg r).Reads R T s := by
  intro t same
  simp only [memory, Machine.load, Machine.address, same.seg, same.reg r held]
  split
  · exact congrArg some (word_congr fun x low high => same.mem x (kept x low high))
  · rfl

theorem carries_at (held : R r) : (memory w d fun m => m.reg r).Carries R T s := by
  intro v s' t done same
  obtain ⟨a, placed, made⟩ := Option.bind_eq_some_iff.mp done
  cases Option.some.inj made
  refine ⟨t.put a v, ?_, same.put a v⟩
  have place : t.address d (t.reg r) w = s.address d (s.reg r) w := by
    rw [Machine.address, Machine.address, same.seg, same.reg r held]
  rw [← place] at placed
  exact Option.bind_eq_some_iff.mpr ⟨a, placed, rfl⟩

end operands

section instructions

variable {s : Machine}

theorem Respects.mov {d o : Operand w} (reads : o.Reads R T s) (carries : d.Carries R T s) :
    Respects R T (mov d o) s := by
  intro s' t done same
  obtain ⟨v, got, stored⟩ := Option.bind_eq_some_iff.mp done
  obtain ⟨t', stored', same'⟩ := carries v s' t stored same
  exact ⟨t', Option.bind_eq_some_iff.mpr ⟨v, (reads t same).trans got, stored'⟩, same'⟩

theorem Respects.update {d o : Operand w} (old : d.Reads R T s) (reads : o.Reads R T s)
    (carries : d.Carries R T s) (f) : Respects R T (update f d o) s := by
  intro s' t done same
  obtain ⟨u, before, done⟩ := Option.bind_eq_some_iff.mp done
  obtain ⟨v, got, stored⟩ := Option.bind_eq_some_iff.mp done
  obtain ⟨t', stored', same'⟩ := carries (f u v) s' t stored same
  refine ⟨t', Option.bind_eq_some_iff.mpr ⟨u, (old t same).trans before, ?_⟩, same'⟩
  exact Option.bind_eq_some_iff.mpr ⟨v, (reads t same).trans got, stored'⟩

theorem Respects.div {o : Operand 32} (reads : o.Reads R T s) (low : R .eax) (high : R .edx) :
    Respects R T (div o) s := by
  intro s' t done same
  obtain ⟨d, got, done⟩ := Option.bind_eq_some_iff.mp done
  dsimp only at done
  split at done
  · cases done
  · rename_i fits
    cases Option.some.inj done
    rw [← same.reg .eax low, ← same.reg .edx high] at fits ⊢
    refine ⟨_, Option.bind_eq_some_iff.mpr ⟨d, (reads t same).trans got, if_neg fits⟩, ?_⟩
    exact (same.set (by decide) _).set (by decide) _

theorem Respects.push {o : Operand w} (reads : o.Reads R T s) (size : w / 8 < 2 ^ 32)
    (room : w / 8 ≤ (s.reg .esp).toNat) (top : (s.reg .esp).toNat ≤ (s.seg .ss).limit + 1) :
    Respects R T (push o) s := by
  intro s' t done same
  obtain ⟨v, got, _⟩ := Option.bind_eq_some_iff.mp done
  cases Option.some.inj (done.symm.trans (push_pushed got size room top))
  have pushed := push_pushed ((reads t same).trans got) size (by rwa [same.esp])
    (by rwa [same.esp, same.seg])
  have depth := toNat_esp_pushed (m := s) v size room
  have place : t.pushed v = (t.set .esp (s.reg .esp - BitVec.ofNat 32 (w / 8))).put
      ((s.seg .ss).base + ((s.reg .esp).toNat - w / 8)) v := by
    rw [Machine.pushed, same.esp, same.seg]
  refine ⟨_, pushed, ?_⟩
  rw [place]
  refine ⟨same.seg, rfl, ?_, ?_, ?_⟩
  · intro r held
    by_cases here : r = .esp
    · rw [here]
      rfl
    · exact (t.set_other _ here).trans ((same.reg r held).trans (s.set_other _ here).symm)
  · intro x kept
    simp only [Machine.pushed, Machine.put, write]
    split
    · rfl
    · exact same.mem x kept
  · intro x low high
    have above : (s.seg .ss).base + ((s.reg .esp).toNat - w / 8) ≤ x := by rwa [depth] at low
    simp only [Machine.pushed, Machine.put, write]
    split
    · rfl
    · exact same.stack x (by omega) high

theorem Respects.pop {o : Operand w}
    (inside : (s.reg .esp).toNat + w / 8 ≤ (s.seg .ss).limit + 1)
    (small : (s.seg .ss).limit + 1 < 2 ^ 32)
    (carries : o.Carries R T (s.set .esp (s.reg .esp + BitVec.ofNat 32 (w / 8)))) :
    Respects R T (pop o) s := by
  intro s' t done same
  have loaded : word t.mem w ((s.seg .ss).base + (s.reg .esp).toNat) =
      word s.mem w ((s.seg .ss).base + (s.reg .esp).toNat) :=
    word_congr fun x low high => same.stack x low (by omega)
  have raised : Undisturbed R T (s.set .esp (s.reg .esp + BitVec.ofNat 32 (w / 8)))
      (t.set .esp (s.reg .esp + BitVec.ofNat 32 (w / 8))) := by
    apply same.raise
    rw [BitVec.toNat_add, BitVec.toNat_ofNat]
    omega
  rw [pop_eq inside] at done
  obtain ⟨t', stored, same'⟩ := carries _ s' _ done raised
  refine ⟨t', ?_, same'⟩
  rw [pop_eq (by rwa [same.esp, same.seg]), same.esp, same.seg, loaded]
  exact stored

end instructions

def Line.Respects (R : Reg → Prop) (T : Nat → Prop) (line : Line) (p : Point) : Prop :=
  ∀ q m, line.step p = some q → Undisturbed R T p.machine m →
    ∃ m', line.step ⟨p.pc, m⟩ = some ⟨q.pc, m'⟩ ∧ Undisturbed R T q.machine m'

theorem Line.respects_plain (respects : X86.Respects R T f p.machine) :
    (Line.plain f).Respects R T p := by
  intro q m done same
  obtain ⟨s, ran, next⟩ := Option.bind_eq_some_iff.mp done
  cases Option.some.inj next
  obtain ⟨t, ran', same'⟩ := respects s m ran same
  exact ⟨t, Option.bind_eq_some_iff.mpr ⟨t, ran', rfl⟩, same'⟩

theorem Line.respects_jump
    (decides : ∀ m, Undisturbed R T p.machine m → condition m = condition p.machine) :
    (Line.jump condition target).Respects R T p := by
  intro q m done same
  obtain ⟨jumps, decided, next⟩ := Option.bind_eq_some_iff.mp done
  cases Option.some.inj next
  exact ⟨m, Option.bind_eq_some_iff.mpr ⟨jumps, (decides m same).trans decided, rfl⟩, same⟩

theorem Line.respects_loop (held : R .ecx) : (Line.loop target).Respects R T p := by
  intro q m done same
  cases Option.some.inj done
  refine ⟨m.set .ecx (p.machine.reg .ecx - 1), ?_, same.set (by decide) _⟩
  have counter := same.reg .ecx held
  simp [Line.step, counter]

section runs

variable {program : List Line} {calm : Machine → Machine} {around : Nat → Machine → Machine}

inductive Path (R : Reg → Prop) (T : Nat → Prop) (program : List Line)
    (calm : Machine → Machine) : Nat → Point → Point → Prop
  | refl (p : Point) : Path R T program calm 0 p p
  | step : program[p.pc]? = some line → line.step p = some q → line.Respects R T p →
      Path R T program calm k ⟨q.pc, calm q.machine⟩ r → Path R T program calm (k + 1) p r

theorem Path.trans (first : Path R T program calm k p q) (second : Path R T program calm k' q r) :
    Path R T program calm (k + k') p r := by
  induction first with
  | refl => rwa [Nat.zero_add]
  | step line done respects _ ih =>
      rw [Nat.succ_add]
      exact .step line done respects (ih second)

theorem Path.execute (path : Path R T program calm k p q)
    (absorbs : ∀ n s t, Undisturbed R T s t → Undisturbed R T (calm s) (around n t))
    (same : Undisturbed R T p.machine m) (n : Nat) :
    ∃ m', X86.execute program around n k ⟨p.pc, m⟩ = some ⟨q.pc, m'⟩ ∧
      Undisturbed R T q.machine m' := by
  induction path generalizing m n with
  | refl => exact ⟨m, rfl, same⟩
  | step line done respects _ ih =>
      obtain ⟨m₁, done', same₁⟩ := respects _ m done same
      obtain ⟨m₂, rest, same₂⟩ := ih (absorbs n _ _ same₁) (n + 1)
      refine ⟨m₂, ?_, same₂⟩
      rw [X86.execute, line]
      exact (congrArg (fun x => Option.bind x _) done').trans rest

end runs

end OsUnix.X86
