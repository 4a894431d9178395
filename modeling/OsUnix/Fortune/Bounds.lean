import OsUnix.Fortune.Invariant

/-!
# Where a write stores

The guard of `fortune_write` counts one byte too many, and the terminator of an empty message goes
before its own first byte. These two are the only ways out of the pot.
-/

namespace OsUnix.Fortune
open Kernel

variable {pot : Pot} {buf : List UInt8} {len : Nat} {outside : Memory} {ops : List Op}

structure BoundedWrite (pot : Pot) (len : Nat) (write : Write) : Prop where
  stores : write.stores.Within 0 maxCookieLength
  index : write.pot.cookieIndex ≤ maxCookieLength
  refused : maxCookieLength - pot.cookieIndex < len → write.ret = -enospc

def Bounded (pot : Pot) : Op → Pot → Answer → Prop
  | .write _ len, _, .wrote write => BoundedWrite pot len write
  | _, _, _ => True

def CarefulWrite (pot : Pot) (len : Nat) : Prop :=
  (len : Int) ≠ maxCookieLength - pot.cookieIndex + 1 ∧ ¬ (len = 0 ∧ pot.cookieIndex = 0)

def Careful (pot : Pot) : Op → Pot → Answer → Prop
  | .write _ len, _, _ => CarefulWrite pot len
  | .read _ _ _, _, _ => True

theorem CarefulWrite.bounded (careful : CarefulWrite pot len) (sound : Sound pot)
    (le : pot.cookieIndex ≤ maxCookieLength) (buf : List UInt8) :
    BoundedWrite pot len (fortuneWrite pot buf len) := by
  have nonneg := sound.index_nonneg
  obtain ⟨not_one_over, not_empty⟩ := careful
  have outcome := fortuneWrite_cases sound buf len
  generalize fortuneWrite pot buf len = write at outcome
  cases outcome with
  | refused exceeds => exact ⟨List.forall_mem_nil _, le, fun _ => rfl⟩
  | failed room short =>
      refine ⟨copyFromUser_within.mono nonneg (by omega), le, fun exceeds => ?_⟩
      omega
  | accepted room whole =>
      refine ⟨Accesses.within_append.mpr ⟨copyFromUser_within.mono nonneg (by omega),
        Accesses.within_singleton.mpr (by omega)⟩, ?_, fun exceeds => ?_⟩
      · rw [terminate_cookieIndex, accepted_index sound room]
        omega
      · omega

theorem BoundedWrite.careful (sound : Sound pot)
    (bounded : BoundedWrite pot len (fortuneWrite pot buf len)) : CarefulWrite pot len := by
  have nonneg := sound.index_nonneg
  obtain ⟨stores, -, refused⟩ := bounded
  have outcome := fortuneWrite_cases sound buf len
  generalize fortuneWrite pot buf len = write at outcome stores refused
  constructor
  · -- the answer to one byte too many is not the refusal
    intro one_over
    have ret := refused (by omega)
    cases outcome with
    | refused exceeds => omega
    | failed room short => cases ret
    | accepted room whole =>
        have : (len : Int) = -28 := ret
        omega
  · -- the terminator of nothing goes below the pot
    rintro ⟨rfl, empty⟩
    cases outcome with
    | refused exceeds =>
        unfold maxCookieLength at exceeds
        omega
    | failed room short => exact absurd short (Nat.not_lt_zero _)
    | accepted room whole =>
        have terminator := Accesses.within_singleton.mp (Accesses.within_append.mp stores).2
        omega

variable {op : Op} {next : Pot} {answer : Answer}

theorem bounded_iff_careful (sound : Sound pot) (le : pot.cookieIndex ≤ maxCookieLength)
    (step : (component outside).step pot op = some (next, answer)) :
    Bounded pot op next answer ↔ Careful pot op next answer := by
  cases op with
  | write buf len =>
      cases step
      exact ⟨fun bounded => bounded.careful sound, fun careful => careful.bounded sound le buf⟩
  | read ppos len room => exact Iff.rfl

theorem index_le_of_bounded (sound : Sound pot) (le : pot.cookieIndex ≤ maxCookieLength)
    (step : (component outside).step pot op = some (next, answer))
    (bounded : Bounded pot op next answer) : next.cookieIndex ≤ maxCookieLength := by
  cases op with
  | write buf len =>
      cases step
      exact bounded.index
  | read ppos len room =>
      obtain ⟨read, step', reads⟩ := @exists_read pot outside sound ppos len room
      rw [step'] at step
      cases step
      cases reads <;> exact le

/-- The bounds hold along a run exactly when every write in it is careful. -/
theorem alwaysBounded_iff (outside : Memory) (ops : List Op) :
    (component outside).Always Bounded (Pot.fresh outside) ops ↔
      (component outside).Always Careful (Pot.fresh outside) ops := by
  apply Component.Always.congr (I := fun pot => Sound pot ∧ pot.cookieIndex ≤ maxCookieLength)
  · exact ⟨Sound.fresh, Int.natCast_nonneg _⟩
  · intro pot op next answer ⟨sound, le⟩ step
    exact bounded_iff_careful sound le step
  · intro pot op next answer ⟨sound, le⟩ step bounded
    exact ⟨sound_of_step sound step, index_le_of_bounded sound le step bounded⟩

theorem not_bounded_of_write (careless : ¬ CarefulWrite (Pot.fresh outside) len) :
    ¬ (component outside).Always Bounded (Pot.fresh outside) [.write buf len] := by
  intro always
  obtain ⟨bounded, -⟩ := always _ _ rfl
  exact careless (BoundedWrite.careful Sound.fresh bounded)

theorem bounded_fails :
    ¬ (component 0).Always Bounded (Pot.fresh 0) [.write [] 0] ∧
    ¬ (component 0).Always Bounded (Pot.fresh 0) [.write (List.replicate 4097 97) 4097] := by
  constructor
  · exact not_bounded_of_write fun careful => careful.2 ⟨rfl, rfl⟩
  · exact not_bounded_of_write fun careful => careful.1 rfl

end OsUnix.Fortune
