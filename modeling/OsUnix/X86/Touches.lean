import OsUnix.X86.Frame
import OsUnix.X86.Words

/-!
# Where code writes

Rules for the addresses that a piece of code may write to.
-/

namespace OsUnix.X86

def Touches (seg : SegReg → Segment) (A : Nat → Prop) (f : Instr) : Prop :=
  ∀ s t, s.seg = seg → f s = some t → t.seg = seg ∧ ∀ x, ¬ A x → t.mem x = s.mem x

def Segment.Holds (s : Segment) (x : Nat) : Prop := s.base ≤ x ∧ x ≤ s.base + s.limit

theorem mov_store_cases {o : Operand w} {offset : Machine → BitVec 32}
    (done : mov (memory w s offset) o m = some t) :
    ∃ v, o.get m = some v ∧ (offset m).toNat + w / 8 ≤ (m.seg s).limit + 1 ∧
      t = m.put ((m.seg s).base + (offset m).toNat) v := by
  obtain ⟨v, got, stored⟩ := Option.bind_eq_some_iff.mp done
  exact ⟨v, got, store_cases stored⟩

section rules

variable {seg : SegReg → Segment} {A : Nat → Prop}

theorem Touches.mono (touches : Touches seg A f) (fewer : ∀ x, A x → A' x) :
    Touches seg A' f := by
  intro s t segments done
  obtain ⟨same, mem⟩ := touches s t segments done
  exact ⟨same, fun x outside => mem x fun inside => outside (fewer x inside)⟩

theorem Touches.nil : Touches seg A (run []) := by
  intro s t segments done
  cases Option.some.inj done
  exact ⟨segments, fun _ _ => rfl⟩

theorem Touches.cons (first : Touches seg A instr) (rest : Touches seg A (run block)) :
    Touches seg A (run (instr :: block)) := by
  intro s t segments done
  obtain ⟨u, head, tail⟩ := Option.bind_eq_some_iff.mp done
  obtain ⟨middle, before⟩ := first s u segments head
  obtain ⟨final, after⟩ := rest u t middle tail
  exact ⟨final, fun x outside => (after x outside).trans (before x outside)⟩

theorem Touches.single (touches : Touches seg A instr) : Touches seg A (run [instr]) :=
  touches.cons Touches.nil

theorem Touches.append (first : Touches seg A (run block)) (second : Touches seg A (run block')) :
    Touches seg A (run (block ++ block')) := by
  intro s t segments done
  rw [run_append] at done
  obtain ⟨u, head, tail⟩ := Option.bind_eq_some_iff.mp done
  obtain ⟨middle, before⟩ := first s u segments head
  obtain ⟨final, after⟩ := second u t middle tail
  exact ⟨final, fun x outside => (after x outside).trans (before x outside)⟩

theorem Touches.branch (condition) (yes : Touches seg A (run yesBlock))
    (no : Touches seg A (run noBlock)) : Touches seg A (branch condition yesBlock noBlock) := by
  intro s t segments done
  rw [X86.branch] at done
  split at done
  · exact yes s t segments done
  · exact no s t segments done

theorem Operand.Writes.touches {d : Operand w} (writes : d.Writes P) (stored : d.set v s = some t) :
    t.seg = s.seg ∧ t.mem = s.mem := by
  obtain ⟨r, x, _, set, _⟩ := writes v s
  cases Option.some.inj (stored.symm.trans set)
  exact ⟨rfl, rfl⟩

theorem Touches.update {d : Operand w} (writes : d.Writes P) (f) (o : Operand w) :
    Touches seg A (update f d o) := by
  intro s t segments done
  obtain ⟨old, _, done⟩ := Option.bind_eq_some_iff.mp done
  obtain ⟨v, _, stored⟩ := Option.bind_eq_some_iff.mp done
  obtain ⟨same, mem⟩ := writes.touches stored
  exact ⟨same.trans segments, fun x _ => congrFun mem x⟩

theorem Touches.mov {d : Operand w} (writes : d.Writes P) (o : Operand w) :
    Touches seg A (mov d o) := by
  intro s t segments done
  obtain ⟨v, _, stored⟩ := Option.bind_eq_some_iff.mp done
  obtain ⟨same, mem⟩ := writes.touches stored
  exact ⟨same.trans segments, fun x _ => congrFun mem x⟩

theorem Touches.input {d : Operand 8} (writes : d.Writes P) (port : BitVec 16) :
    Touches seg A (input d port) := by
  intro s t segments done
  obtain ⟨same, mem⟩ := writes.touches done
  exact ⟨same.trans segments, fun x _ => congrFun mem x⟩

theorem Touches.output (port : BitVec 16) (o : Operand 8) : Touches seg A (output port o) := by
  intro s t segments done
  obtain ⟨v, _, sent⟩ := Option.bind_eq_some_iff.mp done
  cases Option.some.inj sent
  exact ⟨segments, fun _ _ => rfl⟩

theorem Touches.store {offset : Machine → BitVec 32} (w : Nat) (o : Operand w)
    (inside : ∀ m : Machine, (offset m).toNat + w / 8 ≤ (seg s).limit + 1 → ∀ x,
      (seg s).base + (offset m).toNat ≤ x → x < (seg s).base + (offset m).toNat + w / 8 → A x) :
    Touches seg A (X86.mov (memory w s offset) o) := by
  intro m t segments done
  obtain ⟨v, _, fits, rfl⟩ := mov_store_cases done
  rw [segments] at fits ⊢
  refine ⟨segments, fun x outside => write_outside ?_⟩
  by_contra within
  exact outside (inside m fits x (by omega) (by omega))

theorem Touches.push (o : Operand w) (stack : ∀ x, (seg .ss).Holds x → A x) :
    Touches seg A (push o) := by
  intro m t segments done
  obtain ⟨v, _, stored⟩ := Option.bind_eq_some_iff.mp done
  obtain ⟨fits, rfl⟩ := store_cases stored
  rw [Machine.set_seg, segments] at fits ⊢
  refine ⟨rfl, fun x outside => write_outside ?_⟩
  by_contra within
  exact outside (stack x ⟨by omega, by omega⟩)

theorem Touches.pop {o : Operand w} (writes : o.Writes P) : Touches seg A (pop o) := by
  intro s t segments done
  obtain ⟨v, _, stored⟩ := Option.bind_eq_some_iff.mp done
  obtain ⟨same, mem⟩ := writes.touches stored
  exact ⟨same.trans segments, fun x _ => congrFun mem x⟩

end rules

end OsUnix.X86
