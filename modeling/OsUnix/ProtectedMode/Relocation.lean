import OsUnix.ProtectedMode.SetUp

/-!
# Where the tables lead

What the set-up leaves in the descriptors and in the images of `gdtr` and `idtr`.
-/

namespace OsUnix.ProtectedMode
open X86

def address16 (selector : BitVec 16) : BitVec 32 := selector.setWidth 32 <<< 4

theorem toNat_address16 (selector : BitVec 16) :
    (address16 selector).toNat = 16 * selector.toNat := by
  have bound := selector.isLt
  simp only [address16, BitVec.toNat_shiftLeft, BitVec.toNat_setWidth, Nat.shiftLeft_eq]
  omega

theorem parts_address16 (selector : BitVec 16) :
    ((address16 selector >>> 16).extractLsb' 0 8 ++
      (address16 selector).extractLsb' 0 16).toNat = 16 * selector.toNat := by
  have bound := selector.isLt
  have whole := toNat_address16 selector
  rw [toNat_append_eq]
  simp [Nat.shiftRight_eq_div_pow, whole]
  omega

theorem shl_ax {v : BitVec 32} (clear : v.toNat < 0x10000) (selector : BitVec 16) :
    (v.extractLsb' 16 16 ++ selector) <<< 4 = address16 selector := by
  have upper : v.extractLsb' 16 16 = 0 := by
    apply BitVec.eq_of_toNat_eq
    simp [Nat.shiftRight_eq_div_pow]
    omega
  have bound := selector.isLt
  rw [upper, address16]
  congr 1
  apply BitVec.eq_of_toNat_eq
  rw [toNat_append_eq]
  simp
  omega

theorem clear_shr (v : BitVec 32) : (v >>> 16).toNat < 0x10000 := by
  have bound := v.isLt
  simp [Nat.shiftRight_eq_div_pow]
  omega

section phases

variable {segments : Segments} {sp : BitVec 16} {v : BitVec 32} {mem : Nat → BitVec 8}

abbrev Segments.At (segments : Segments) (sp : BitVec 16) (v : BitVec 32)
    (mem : Nat → BitVec 8) : Machine → Prop :=
  Real segments.pm segments.stack sp v mem

theorem total_selector (clear : v.toNat < 0x10000) (selector : BitVec 16) :
    Total (segments.At sp v mem) (run [mov ax (imm selector), shl eax 4])
      (segments.At sp (address16 selector) mem) := by
  rw [← shl_ax clear selector]
  have load : Total (segments.At sp v mem) (mov ax (imm selector))
      (segments.At sp (v.extractLsb' 16 16 ++ selector) mem) := by
    apply Real.compute
    intro m eax
    rw [← eax]
    rfl
  have shift : Total (segments.At sp (v.extractLsb' 16 16 ++ selector) mem) (shl eax 4)
      (segments.At sp ((v.extractLsb' 16 16 ++ selector) <<< 4) mem) := by
    apply Real.compute
    intro m eax
    rw [← eax]
    rfl
  exact load.cons shift.single

theorem total_pm {o : Operand w} (offset : BitVec 32)
    (got : ∀ m : Machine, m.reg .eax = v → o.get m = some x)
    (fits : offset.toNat + w / 8 ≤ 0x10000) :
    Total (segments.At sp v mem) (mov (pmVariable w offset) o)
      (segments.At sp v (write mem (segments.linear offset) x)) :=
  Real.store got fits

theorem total_shr : Total (segments.At sp v mem) (shr eax 16) (segments.At sp (v >>> 16) mem) := by
  apply Real.compute
  intro m value
  rw [← value]
  rfl

theorem total_ax (offset : BitVec 32) (fits : offset.toNat + 2 ≤ 0x10000) :
    Total (segments.At sp v mem) (mov (pmVariable 16 offset) ax)
      (segments.At sp v (write mem (segments.linear offset) (v.extractLsb' 0 16))) :=
  total_pm offset (fun _ value => value ▸ rfl) fits

theorem total_al (offset : BitVec 32) (fits : offset.toNat + 1 ≤ 0x10000) :
    Total (segments.At sp v mem) (mov (pmVariable 8 offset) al)
      (segments.At sp v (write mem (segments.linear offset) (v.extractLsb' 0 8))) :=
  total_pm offset (fun _ value => value ▸ rfl) fits

def Segments.low (segments : Segments) (address : BitVec 32) (selector : BitVec 32)
    (mem : Nat → BitVec 8) : Nat → BitVec 8 :=
  write mem (segments.linear (baseL selector)) (address.extractLsb' 0 16)

def Segments.middle (segments : Segments) (address : BitVec 32) (selector : BitVec 32)
    (mem : Nat → BitVec 8) : Nat → BitVec 8 :=
  write mem (segments.linear (baseM selector)) ((address >>> 16).extractLsb' 0 8)

theorem total_set16bitCS : Total (segments.At sp v mem) (run (set16bitCS segments))
    (segments.At sp (address16 segments.rm >>> 16)
      (segments.middle (address16 segments.rm) sel16bitCS
        (segments.low (address16 segments.rm) sel16bitCS mem))) := by
  have clear : Total (segments.At sp v mem) (X86.xor eax eax) (segments.At sp 0 mem) := by
    apply Real.compute
    intro m _
    simp [X86.xor, update, eax, r32]
  have selector : Total (segments.At sp 0 mem) _ _ := total_selector (by decide) segments.rm
  exact clear.cons (selector.append ((total_ax _ (by decide)).cons
    (total_shr.cons (total_al _ (by decide)).single)))

theorem total_push (fits : (sp - 4).toNat + 4 ≤ 0x10000) :
    Total (segments.At sp v mem) (push16 eax) (segments.At (sp - 4) v
      (write mem (16 * segments.stack.toNat + (sp - 4).toNat) v)) :=
  Real.push (fun _ value => value ▸ rfl) fits

theorem total_set32bit (clear : v.toNat < 0x10000) :
    Total (segments.At 0x100 v mem) (run (set32bit segments))
      (segments.At 0xF8 (address16 segments.pm >>> 16) (
        segments.middle (address16 segments.pm) sel32bitDS (
        segments.middle (address16 segments.pm) sel32bitSS (
        segments.middle (address16 segments.pm) sel32bitCS (
        segments.low (address16 segments.pm) sel32bitDS (
        segments.low (address16 segments.pm) sel32bitSS (
        segments.low (address16 segments.pm) sel32bitCS (
        write (write mem (16 * segments.stack.toNat + 0xFC) (address16 segments.pm))
          (16 * segments.stack.toNat + 0xF8) (address16 segments.pm))))))))) := by
  have selector : Total (segments.At 0x100 v mem) _ _ := total_selector clear segments.pm
  exact selector.append ((total_push (by decide)).cons ((total_push (by decide)).cons
    ((total_ax _ (by decide)).cons ((total_ax _ (by decide)).cons ((total_ax _ (by decide)).cons
    (total_shr.cons ((total_al _ (by decide)).cons ((total_al _ (by decide)).cons
      (total_al _ (by decide)).single))))))))

def Segments.image (segments : Segments) (pointer offset : BitVec 32) (size : Nat)
    (address : BitVec 32) (mem : Nat → BitVec 8) : Nat → BitVec 8 :=
  write (write mem (segments.linear (pointer + 2)) (address + offset)) (segments.linear pointer)
    (BitVec.ofNat 16 size - 1)

theorem total_table (pointer offset : BitVec 32) (size : Nat) (fits : sp.toNat + 4 ≤ 0x10000)
    (low : pointer.toNat + 2 ≤ 0x10000) (high : (pointer + 2).toNat + 4 ≤ 0x10000) :
    Total (segments.At sp v mem)
      (run [pop16 eax, X86.add eax (imm offset), mov (pmVariable 32 (pointer + 2)) eax,
        mov (pmVariable 16 pointer) (imm (BitVec.ofNat 16 size - 1))])
      (segments.At (sp + 4) (word mem 32 (16 * segments.stack.toNat + sp.toNat) + offset)
        (segments.image pointer offset size
          (word mem 32 (16 * segments.stack.toNat + sp.toNat)) mem)) := by
  have popped : Total (segments.At sp v mem) (pop16 eax) _ := Real.pop fits
  have moved {u : BitVec 32} {mem : Nat → BitVec 8} : Total (segments.At (sp + 4) u mem)
      (X86.add eax (imm offset)) (segments.At (sp + 4) (u + offset) mem) := by
    apply Real.compute
    intro m value
    rw [← value]
    rfl
  exact popped.cons (moved.cons ((total_pm _ (fun _ value => value ▸ rfl) high).cons
    (total_pm _ (fun _ _ => rfl) low).single))

theorem total_lgdt (offset : BitVec 32) (fits : offset.toNat + 6 ≤ 0x10000) :
    Total (segments.At sp v mem) (lgdt (pmVariable 48 offset)) (segments.At sp v mem) := by
  intro m here
  obtain ⟨x, loaded⟩ : ∃ x, (pmVariable 48 offset).get m = some x :=
    load_fits (by rw [here.ds]; exact fits)
  refine ⟨m, ?_, here⟩
  rw [lgdt, loaded]
  rfl

end phases

section loaded

variable (l : Loaded)

def Loaded.described : Nat → BitVec 8 :=
  l.middle (address16 l.pm) sel32bitDS (
  l.middle (address16 l.pm) sel32bitSS (
  l.middle (address16 l.pm) sel32bitCS (
  l.low (address16 l.pm) sel32bitDS (
  l.low (address16 l.pm) sel32bitSS (
  l.low (address16 l.pm) sel32bitCS (
  write (write (
  l.middle (address16 l.rm) sel16bitCS (
  l.low (address16 l.rm) sel16bitCS (
  write l.machine.mem (16 * l.stack.toNat + 0xFE) l.pm)))
    (16 * l.stack.toNat + 0xFC) (address16 l.pm))
    (16 * l.stack.toNat + 0xF8) (address16 l.pm)))))))

def Loaded.final : Nat → BitVec 8 :=
  l.image idtr idt idtSize (word (l.image gdtr gdt gdtSize
      (word l.described 32 (16 * l.stack.toNat + 0xF8)) l.described) 32 (16 * l.stack.toNat + 0xFC))
    (l.image gdtr gdt gdtSize (word l.described 32 (16 * l.stack.toNat + 0xF8)) l.described)

theorem run_setUp : ∃ t, run (setUp l.toSegments) l.machine = some t ∧ t.mem = l.final := by
  have begin : Real l.data l.stack 0x100 (l.machine.reg .eax) l.machine.mem l.machine :=
    ⟨l.ds, l.ss, l.sp, rfl, rfl⟩
  have pushed : Total (Real l.data l.stack 0x100 (l.machine.reg .eax) l.machine.mem)
      (push16 (imm l.pm)) _ := Real.push (fun _ _ => rfl) (by decide)
  have entered : Total (Real l.data l.stack 0xFE (l.machine.reg .eax) _)
      (pop16 (selector16 .ds)) _ := Real.popDS (by decide) (word_write l.machine.mem _ l.pm rfl)
  have gdtrSet : Total (l.At 0xF8 (address16 l.pm >>> 16) l.described) (run setGdtr) _ :=
    (total_table gdtr gdt gdtSize (by decide) (by decide) (by decide)).append
      (total_lgdt gdtr (by decide)).single
  have idtrSet : Total (l.At 0xFC (word l.described 32 (16 * l.stack.toNat + 0xF8) + gdt)
      (l.image gdtr gdt gdtSize (word l.described 32 (16 * l.stack.toNat + 0xF8)) l.described))
      _ _ :=
    total_table idtr idt idtSize (by decide) (by decide) (by decide)
  obtain ⟨t, done, final⟩ := ((((pushed.cons entered.single).append total_set16bitCS).append
    (total_set32bit (clear_shr _))).append gdtrSet).append idtrSet l.machine begin
  exact ⟨t, done, final.mem⟩

end loaded

section fields

variable {segments : Segments} {mem : Nat → BitVec 8}

theorem word_beside {offset offset' : BitVec 32} {v : BitVec w'}
    (beside : Apart offset.toNat (w / 8) offset'.toNat (w' / 8)) :
    word (write mem (segments.linear offset') v) w (segments.linear offset) =
      word mem w (segments.linear offset) := by
  apply word_apart
  simp only [Apart, Segments.linear] at beside ⊢
  omega

theorem base_of_parts {selector : BitVec 32} (address : BitVec 16)
    (low : word mem 16 (segments.linear (baseL selector)) = (address16 address).extractLsb' 0 16)
    (middle : word mem 8 (segments.linear (baseM selector)) =
      (address16 address >>> 16).extractLsb' 0 8) :
    segments.base mem selector = 16 * address.toNat := by
  rw [Segments.base, low, middle, parts_address16]

end fields

section tables

variable (l : Loaded)

/-- Besides the two 32-bit segments the descriptor of the stack is filled from PM_seg. -/
theorem base_pm {selector : BitVec 32}
    (known : selector = sel32bitCS ∨ selector = sel32bitDS ∨ selector = sel32bitSS) :
    l.base l.final selector = 16 * l.pm.toNat := by
  apply base_of_parts
  all_goals
    rcases known with rfl | rfl | rfl
    all_goals
      simp (disch := decide) only [Loaded.final, Loaded.described, Segments.image, Segments.low,
        Segments.middle, word_beside]
      exact word_write _ _ _ rfl

/-- The set-up runs to its end, and no load leaves what it should: wherever the loader has put the
stack, the descriptor of the stack lies on the GDT. -/
theorem relocated_never : ∃ t, run (setUp l.toSegments) l.machine = some t ∧
    ¬ l.Relocated t.mem := by
  obtain ⟨t, done, mem⟩ := run_setUp l
  refine ⟨t, done, fun relocated => ?_⟩
  have beside := relocated.besideGdt
  have first : l.linear gdt = 16 * l.pm.toNat := rfl
  rw [mem, base_pm l (Or.inr (Or.inr rfl)), first] at beside
  simp only [Apart, stackL, gdtSize] at beside
  omega

def Loaded.Separate : Prop :=
  Apart (16 * l.stack.toNat) stackL (16 * l.pm.toNat) (idtr.toNat + 6)

section separate

variable {l} {mem : Nat → BitVec 8} (separate : l.Separate)
include separate

theorem word_table {offset : BitVec 32} {v : BitVec w'} (inStack : depth + w' / 8 ≤ stackL)
    (inTables : offset.toNat + w / 8 ≤ idtr.toNat + 6) :
    word (write mem (16 * l.stack.toNat + depth) v) w (l.linear offset) =
      word mem w (l.linear offset) := by
  apply word_apart
  simp only [Loaded.Separate, Apart, Segments.linear] at separate ⊢
  omega

theorem word_stack {offset : BitVec 32} {v : BitVec w'} (inStack : depth + w / 8 ≤ stackL)
    (inTables : offset.toNat + w' / 8 ≤ idtr.toNat + 6) :
    word (write mem (l.linear offset) v) w (16 * l.stack.toNat + depth) =
      word mem w (16 * l.stack.toNat + depth) := by
  apply word_apart
  simp only [Loaded.Separate, Apart, Segments.linear] at separate ⊢
  omega

theorem base_code16 : l.base l.final sel16bitCS = 16 * l.rm.toNat := by
  apply base_of_parts
  all_goals
    simp (disch := decide) only [Loaded.final, Loaded.described, Segments.image, Segments.low,
      Segments.middle, word_beside, word_table separate]
    exact word_write _ _ _ rfl

theorem popped : word l.described 32 (16 * l.stack.toNat + 0xF8) = address16 l.pm ∧
    word l.described 32 (16 * l.stack.toNat + 0xFC) = address16 l.pm := by
  simp (disch := decide) only [Loaded.described, Segments.low, Segments.middle,
    word_stack separate]
  constructor
  · exact word_write _ _ _ rfl
  · rw [word_apart (Or.inr (by omega))]
    exact word_write _ _ _ rfl

theorem pointer_gdtr : (word l.final 32 (l.linear (gdtr + 2))).toNat = l.linear gdt := by
  simp (disch := decide) only [Loaded.final, Segments.image, word_beside, popped separate]
  have same : address16 l.pm + gdt = address16 l.pm := BitVec.add_zero _
  rw [word_write _ _ _ rfl, same]
  exact toNat_address16 l.pm

theorem pointer_idtr : (word l.final 32 (l.linear (idtr + 2))).toNat = l.linear idt := by
  have address := toNat_address16 l.pm
  have bound := l.pm.isLt
  have place : idt.toNat = 62 := rfl
  simp (disch := decide) only [Loaded.final, Segments.image, word_beside, word_stack separate,
    popped separate]
  rw [word_write _ _ _ rfl, BitVec.toNat_add, Segments.linear, address, place]
  omega

/-- The other entries follow the relocation. -/
theorem others_relocated : ∃ t, run (setUp l.toSegments) l.machine = some t ∧
    l.base t.mem sel16bitCS = 16 * l.rm.toNat ∧
    l.base t.mem sel32bitCS = 16 * l.pm.toNat ∧ l.base t.mem sel32bitDS = 16 * l.pm.toNat ∧
    (word t.mem 32 (l.linear (gdtr + 2))).toNat = l.linear gdt ∧
    (word t.mem 32 (l.linear (idtr + 2))).toNat = l.linear idt := by
  obtain ⟨t, done, mem⟩ := run_setUp l
  refine ⟨t, done, ?_⟩
  rw [mem]
  exact ⟨base_code16 separate, base_pm l (Or.inl rfl), base_pm l (Or.inr (Or.inl rfl)),
    pointer_gdtr separate, pointer_idtr separate⟩

end separate

end tables

def loadedAt1000 : Loaded where
  pm := 0x1000
  rm := 0x1090
  stack := 0x1080
  machine :=
    { reg := fun r => if r = .esp then 0x100 else 0
      seg := fun
        | .ss => paragraph 0x1080
        | .cs => paragraph 0x1090
        | _ => paragraph 0x1000
      mem := fun _ => 0
      port := fun _ => 0
      sent := [] }
  data := 0x1000
  ds := rfl
  ss := rfl
  sp := rfl

theorem others_relocated_at1000 : ∃ t,
    run (setUp loadedAt1000.toSegments) loadedAt1000.machine = some t ∧
    loadedAt1000.base t.mem sel16bitCS = 0x10900 ∧
    loadedAt1000.base t.mem sel32bitCS = 0x10000 ∧ loadedAt1000.base t.mem sel32bitDS = 0x10000 ∧
    (word t.mem 32 (loadedAt1000.linear (gdtr + 2))).toNat = 0x10000 ∧
    (word t.mem 32 (loadedAt1000.linear (idtr + 2))).toNat = 0x1003E :=
  others_relocated (by unfold Loaded.Separate Apart; decide)

theorem relocated_fails : ∃ t, run (setUp loadedAt1000.toSegments) loadedAt1000.machine = some t ∧
    loadedAt1000.base t.mem sel32bitSS = 0x10000 ∧ ¬ loadedAt1000.Relocated t.mem := by
  obtain ⟨t, done, mem⟩ := run_setUp loadedAt1000
  have base := base_pm loadedAt1000 (Or.inr (Or.inr rfl))
  rw [← mem] at base
  refine ⟨t, done, base, fun relocated => ?_⟩
  have right := relocated.stack32
  rw [base] at right
  exact absurd right (by decide)

end OsUnix.ProtectedMode
