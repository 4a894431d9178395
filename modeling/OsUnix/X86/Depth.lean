import OsUnix.X86.Touches

/-!
# How deep code goes into the stack
-/

namespace OsUnix.X86

/-- With the segment registers `seg` and ESP at `e` the code keeps the former, leaves ESP at `e'`
and writes only at the addresses `A`. -/
def Descends (seg : SegReg → Segment) (A : Nat → Prop) (e e' : Nat) (f : Instr) : Prop :=
  ∀ s t, s.seg = seg → (s.reg .esp).toNat = e → f s = some t →
    t.seg = seg ∧ (t.reg .esp).toNat = e' ∧ ∀ x, ¬ A x → t.mem x = s.mem x

variable {seg : SegReg → Segment} {A : Nat → Prop} {e e' e'' : Nat}

theorem Descends.nil : Descends seg A e e (run []) := by
  intro s t segments depth done
  cases Option.some.inj done
  exact ⟨segments, depth, fun _ _ => rfl⟩

theorem Descends.cons (first : Descends seg A e e' instr)
    (rest : Descends seg A e' e'' (run block)) : Descends seg A e e'' (run (instr :: block)) := by
  intro s t segments depth done
  obtain ⟨u, head, tail⟩ := Option.bind_eq_some_iff.mp done
  obtain ⟨segments, depth, before⟩ := first s u segments depth head
  obtain ⟨segments, depth, after⟩ := rest u t segments depth tail
  exact ⟨segments, depth, fun x outside => (after x outside).trans (before x outside)⟩

theorem Descends.append (first : Descends seg A e e' (run block))
    (second : Descends seg A e' e'' (run block')) :
    Descends seg A e e'' (run (block ++ block')) := by
  intro s t segments depth done
  rw [run_append] at done
  exact Descends.cons first second s t segments depth done

theorem Descends.branch (yes : Descends seg A e e' (run yesBlock))
    (no : Descends seg A e e' (run noBlock)) :
    Descends seg A e e' (branch condition yesBlock noBlock) := by
  intro s t segments depth done
  rw [X86.branch] at done
  split at done
  · exact yes s t segments depth done
  · exact no s t segments depth done

theorem Descends.single (descends : Descends seg A e e' instr) :
    Descends seg A e e' (run [instr]) :=
  descends.cons Descends.nil

theorem Descends.level {W : Finset Part} (touches : Touches seg A f) (frame : Frame seg W f) :
    Descends seg A e e f := by
  intro s t segments depth done
  obtain ⟨same, mem⟩ := touches s t segments done
  exact ⟨same, (congrArg BitVec.toNat (frame s t segments done).esp).trans depth, mem⟩

theorem Descends.mov {d : Operand w} (writes : d.Writes P) (o : Operand w) :
    Descends seg A e e (mov d o) :=
  Descends.level (Touches.mov writes o) (Frame.mov writes (Finset.Subset.refl P) o)

theorem Descends.update {d : Operand w} (writes : d.Writes P) (f) (o : Operand w) :
    Descends seg A e e (update f d o) :=
  Descends.level (Touches.update writes f o) (Frame.update writes (Finset.Subset.refl P) f o)

theorem Descends.input {d : Operand 8} (writes : d.Writes P) (port : BitVec 16) :
    Descends seg A e e (input d port) :=
  Descends.level (Touches.input writes port) (Frame.input writes (Finset.Subset.refl P) port)

theorem Descends.output (port : BitVec 16) (o : Operand 8) : Descends seg A e e (output port o) :=
  Descends.level (W := ∅) (Touches.output port o) (Frame.output port o)

theorem Descends.store {offset : Machine → BitVec 32} (w : Nat) (o : Operand w)
    (inside : ∀ m : Machine, (offset m).toNat + w / 8 ≤ (seg s).limit + 1 → ∀ x,
      (seg s).base + (offset m).toNat ≤ x → x < (seg s).base + (offset m).toNat + w / 8 → A x) :
    Descends seg A e e (X86.mov (memory w s offset) o) := by
  intro m t segments depth done
  obtain ⟨same, mem⟩ := Touches.store w o inside m t segments done
  obtain ⟨v, -, -, rfl⟩ := mov_store_cases done
  exact ⟨same, depth, mem⟩

theorem Descends.rounds (body : Descends seg A e e (run block)) (n : Nat) :
    Descends seg A e e (rounds block n) := by
  induction n with
  | zero =>
      intro s t _ _ done
      cases done
  | succ n ih =>
      intro s t segments depth done
      obtain ⟨u, once, done⟩ := Option.bind_eq_some_iff.mp done
      obtain ⟨segments, depth, before⟩ := body s u segments depth once
      dsimp only at done
      have counted : ((u.set .ecx (u.reg .ecx - 1)).reg .esp).toNat = e :=
        (congrArg BitVec.toNat (u.set_other _ (by decide))).trans depth
      split at done
      · cases Option.some.inj done
        exact ⟨segments, counted, before⟩
      · obtain ⟨segments, depth, after⟩ := ih (u.set .ecx (u.reg .ecx - 1)) t segments counted done
        exact ⟨segments, depth, fun x outside => (after x outside).trans (before x outside)⟩

theorem Descends.push (o : Operand w) (room : e' + w / 8 = e) (size : w / 8 < 2 ^ 32)
    (stack : ∀ x, (seg .ss).base + e' ≤ x → x < (seg .ss).base + e → A x) :
    Descends seg A e e' (push o) := by
  intro s t segments depth done
  have lowered : (s.reg .esp - BitVec.ofNat 32 (w / 8)).toNat = e' := by
    have below := (s.reg .esp).isLt
    rw [BitVec.toNat_sub, BitVec.toNat_ofNat]
    omega
  obtain ⟨v, _, stored⟩ := Option.bind_eq_some_iff.mp done
  obtain ⟨-, rfl⟩ := store_cases stored
  refine ⟨segments, ?_, fun x outside => write_outside ?_⟩
  · exact (congrArg BitVec.toNat (s.set_self .esp _)).trans lowered
  · rw [Machine.set_seg, segments, lowered]
    by_contra within
    exact outside (stack x (by omega) (by omega))

theorem Descends.pop {o : Operand w} (writes : o.Writes P) (raised : e + w / 8 = e')
    (high : e' < 2 ^ 32) : Descends seg A e e' (pop o) := by
  intro s t segments depth done
  obtain ⟨v, _, stored⟩ := Option.bind_eq_some_iff.mp done
  obtain ⟨r, x, other, set, -⟩ := writes v (s.set .esp (s.reg .esp + BitVec.ofNat 32 (w / 8)))
  cases Option.some.inj (stored.symm.trans set)
  refine ⟨segments, ?_, fun _ _ => rfl⟩
  rw [Machine.set_other _ _ other.symm, Machine.set_self, BitVec.toNat_add, BitVec.toNat_ofNat]
  omega

end OsUnix.X86
