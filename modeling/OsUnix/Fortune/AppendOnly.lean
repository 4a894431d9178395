import OsUnix.Fortune.Invariant

/-!
# The pot is append-only

What has been accepted stays as it is: an accepted write adds its message to the end, and whatever
else happens adds nothing. A copy that fails makes bytes dirty behind `cookie_index` only, and the
terminator of an empty message replaces a zero.
-/

namespace OsUnix.Fortune
open Kernel

variable {pot next s t : Pot} {buf : List UInt8} {len : Nat} {outside : Memory} {op : Op}
  {answer : Answer} {ops : List Op} {answers : List Answer}

def Pot.contents (pot : Pot) : List UInt8 := pot.cookiePot.slice 0 pot.cookieIndex.toNat

def message (buf : List UInt8) (len : Nat) : List UInt8 :=
  if len = 0 then [] else buf.take (len - 1) ++ [0]

def appended : Op → Answer → List UInt8
  | .write buf len, .wrote write => if 0 ≤ write.ret then message buf len else []
  | _, _ => []

theorem length_contents : pot.contents.length = pot.cookieIndex.toNat := Memory.length_slice

theorem contents_congr (index : next.cookieIndex = pot.cookieIndex)
    (same : ∀ i, 0 ≤ i → i < pot.cookieIndex → next.cookiePot i = pot.cookiePot i) :
    next.contents = pot.contents := by
  rw [Pot.contents, Pot.contents, index]
  exact Memory.slice_congr fun i lower upper => same i lower (by omega)

theorem contents_failed : (pot.copy buf len).contents = pot.contents :=
  contents_congr rfl fun _ _ below => copy_below below

theorem contents_accepted_empty (sound : Sound pot) :
    ((pot.copy buf 0).add 0).terminate.contents = pot.contents := by
  have nonneg := sound.index_nonneg
  have room : (0 : Nat) ≤ maxCookieLength - pot.cookieIndex + 1 := by
    have := sound.index_le
    omega
  have index := accepted_index sound room buf
  rw [Int.natCast_zero, Int.add_zero] at index
  refine contents_congr index fun i lower below => ?_
  by_cases last : i = pot.cookieIndex - 1
  · -- the terminator goes where there is a zero already
    rw [last, sound.terminated (by omega), ← index]
    exact terminate_cookiePot_self _
  · exact accepted_below sound room buf below (by omega)

theorem contents_accepted (sound : Sound pot) (room : len ≤ maxCookieLength - pot.cookieIndex + 1)
    (positive : 1 ≤ len) (whole : len ≤ buf.length) :
    ((pot.copy buf len).add len).terminate.contents =
      pot.contents ++ (buf.take (len - 1) ++ [0]) := by
  have nonneg := sound.index_nonneg
  have index := accepted_index sound room buf
  have size : (pot.cookieIndex + len).toNat = pot.cookieIndex.toNat + len := by omega
  rw [Pot.contents, terminate_cookieIndex, index, size, Memory.slice_add, Int.zero_add,
    Int.toNat_of_nonneg nonneg, accepted_slice sound room positive whole, Pot.contents]
  congr 1
  refine Memory.slice_congr fun i _ below => ?_
  exact accepted_below sound room buf (by omega) (by omega)

theorem contents_write (sound : Sound pot) (buf : List UInt8) (len : Nat) :
    (fortuneWrite pot buf len).pot.contents =
      pot.contents ++ appended (.write buf len) (.wrote (fortuneWrite pot buf len)) := by
  have outcome := fortuneWrite_cases sound buf len
  generalize fortuneWrite pot buf len = write at outcome
  cases outcome with
  | refused exceeds =>
      have negative : ¬ (0 : Int) ≤ -enospc := by decide
      rw [appended, if_neg negative, List.append_nil]
  | failed room short =>
      have negative : ¬ (0 : Int) ≤ -efault := by decide
      rw [appended, if_neg negative, List.append_nil, contents_failed]
  | accepted room whole =>
      rw [appended, if_pos (Int.natCast_nonneg len), message]
      split
      · rename_i empty
        subst empty
        rw [List.append_nil, contents_accepted_empty sound]
      · exact contents_accepted sound room (by omega) whole

theorem contents_step (sound : Sound pot)
    (step : (component outside).step pot op = some (next, answer)) :
    next.contents = pot.contents ++ appended op answer := by
  cases op with
  | write buf len =>
      cases step
      exact contents_write sound buf len
  | read ppos len room =>
      obtain ⟨read, step', reads⟩ := @exists_read pot outside sound ppos len room
      rw [step'] at step
      cases step
      show read.pot.contents = pot.contents ++ []
      rw [List.append_nil]
      cases reads <;> rfl

theorem contents_run (sound : Sound s)
    (run : (component outside).exec s ops = some (t, answers)) :
    t.contents = s.contents ++ (List.zipWith appended ops answers).flatten := by
  induction ops generalizing s answers with
  | nil =>
      obtain ⟨rfl, rfl⟩ : s = t ∧ [] = answers := by simpa [Component.exec] using run
      rw [List.zipWith_nil_left, List.flatten_nil, List.append_nil]
  | cons op ops ih =>
      obtain ⟨next, answer, rest, first, later, rfl⟩ := Component.exec_eq_some.mp run
      rw [ih (sound_of_step sound first) later, contents_step sound first, List.zipWith_cons_cons,
        List.flatten_cons, List.append_assoc]

theorem append_only (h : (component outside).Reachable s)
    (run : (component outside).exec s ops = some (t, answers)) :
    s.cookieIndex ≤ t.cookieIndex ∧ s.contents <+: t.contents ∧
      ∀ buf len, 1 ≤ len → 0 ≤ (fortuneWrite t buf len).ret →
        (fortuneWrite t buf len).pot.contents = t.contents ++ (buf.take (len - 1) ++ [0]) := by
  have grown := contents_run (sound h) run
  have sound_t := sound (h.exec run)
  have extends_s : s.contents <+: t.contents := ⟨_, grown.symm⟩
  refine ⟨?_, extends_s, fun buf len positive accepted => ?_⟩
  · have le := extends_s.length_le
    rw [length_contents, length_contents] at le
    have nonneg := sound_t.index_nonneg
    omega
  · rw [contents_write sound_t buf len, appended, if_pos accepted, message, if_neg (by omega)]

theorem append_only_hello : ∃ t answers,
    (component 0).exec (.fresh 0) [.write [104, 10] 2] = some (t, answers) ∧
      Pot.contents (.fresh 0) <+: t.contents ∧
      (fortuneWrite t [105, 10] 2).pot.contents = t.contents ++ [105, 0] := by
  obtain ⟨-, before, later⟩ := append_only (@Component.Reachable.start _ _ _ (component 0))
    (rfl : (component 0).exec (.fresh 0) [.write [104, 10] 2] = some (_, _))
  exact ⟨_, _, rfl, before, later [105, 10] 2 (by decide) (by decide)⟩

end OsUnix.Fortune
