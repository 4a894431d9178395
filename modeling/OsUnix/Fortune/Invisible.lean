import OsUnix.Fortune.Invariant

/-!
# Failed writes

What a failed copy leaves behind lies at `cookie_index` and beyond, where no read comes, except in
an empty pot: there a read starts at its first byte.
-/

namespace OsUnix.Fortune
open Kernel

variable {pot pot' : Pot} {buf : List UInt8} {len n : Nat} {outside : Memory}

def replies (outside : Memory) (pot : Pot) (ops : List Op) : Option (List Reply) :=
  ((component outside).exec pot ops).map fun r => r.2.map Answer.reply

/-- No later calls tell `pot'` from `pot`. -/
def Invisible (outside : Memory) (pot pot' : Pot) : Prop :=
  ∀ ops, replies outside pot' ops = replies outside pot ops

structure Similar (pot pot' : Pot) : Prop where
  sound : Sound pot
  sound' : Sound pot'
  index : pot'.cookieIndex = pot.cookieIndex
  next : pot'.nextFortune = pot.nextFortune
  agree : ∃ m : Int, pot.cookieIndex ≤ m ∧
    (pot.cookieIndex = 0 → ∃ k : Nat, (k : Int) < m ∧ pot.cookiePot k = 0) ∧
    ∀ i, 0 ≤ i → i < m → pot'.cookiePot i = pot.cookiePot i

theorem Similar.copy_same (h : Similar pot pot') {i : Int} (nonneg : 0 ≤ i)
    (upper : i < pot.cookieIndex + len) :
    (pot'.copy buf len).cookiePot i = (pot.copy buf len).cookiePot i := by
  obtain ⟨m, le, -, same⟩ := h.agree
  have index := h.index
  by_cases below : i < pot.cookieIndex
  · rw [copy_below (by omega), copy_below below]
    exact same i nonneg (by omega)
  · show pot'.cookiePot.store (copyFromUser pot'.cookieIndex buf len).accesses i = _
    rw [index]
    exact Memory.store_place_congr (by omega) (by rw [length_copied]; exact upper)

theorem Similar.failed (h : Similar pot pot') (room : len ≤ maxCookieLength - pot.cookieIndex + 1)
    (short : buf.length < len) : Similar (pot.copy buf len) (pot'.copy buf len) where
  sound := h.sound.failed room short
  sound' := h.sound'.failed (by rw [h.index]; exact room) short
  index := h.index
  next := h.next
  agree := by
    refine ⟨pot.cookieIndex + len, by rw [copy_cookieIndex]; omega, fun empty => ?_,
      fun i nonneg upper => h.copy_same nonneg upper⟩
    rw [copy_cookieIndex] at empty
    refine ⟨len - 1, by omega, ?_⟩
    have last := copyFromUser_fill (m := pot.cookiePot) (p := pot.cookieIndex) (k := len - 1)
      (show buf.length ≤ len - 1 by omega) (show len - 1 < len by omega)
    rwa [empty, Int.zero_add, ← empty] at last

theorem Similar.accepted (h : Similar pot pot')
    (room : len ≤ maxCookieLength - pot.cookieIndex + 1) :
    Similar ((pot.copy buf len).add len).terminate ((pot'.copy buf len).add len).terminate := by
  have nonneg := h.sound.index_nonneg
  have room' : len ≤ maxCookieLength - pot'.cookieIndex + 1 := by
    rw [h.index]
    exact room
  have index := accepted_index h.sound room buf
  have index' := accepted_index h.sound' room' buf
  refine ⟨h.sound.accepted room buf, h.sound'.accepted room' buf, ?_, h.next, ?_⟩
  · rw [terminate_cookieIndex, terminate_cookieIndex, index, index', h.index]
  · have same {i : Int} (lower : 0 ≤ i) (upper : i < pot.cookieIndex + len) :
        ((pot'.copy buf len).add len).terminate.cookiePot i =
          ((pot.copy buf len).add len).terminate.cookiePot i := by
      by_cases last : i = pot.cookieIndex + len - 1
      · have at_last := terminate_cookiePot_self ((pot.copy buf len).add len)
        have at_last' := terminate_cookiePot_self ((pot'.copy buf len).add len)
        rw [index] at at_last
        rw [index', h.index] at at_last'
        rw [last, at_last, at_last']
      · rw [terminate_cookiePot _ (by rw [index', h.index]; exact last),
          terminate_cookiePot _ (by rw [index]; exact last)]
        exact h.copy_same lower upper
    by_cases empty : pot.cookieIndex + len = 0
    · -- nothing is copied, and the terminator goes below the pot
      obtain ⟨m, le, zero, agree⟩ := h.agree
      have above {i : Int} (lower : 0 ≤ i) :=
        accepted_above h.sound room buf (i := i) (by omega)
      have above' {i : Int} (lower : 0 ≤ i) :=
        accepted_above h.sound' room' buf (i := i) (by rw [h.index]; omega)
      refine ⟨m, by rw [terminate_cookieIndex, index]; omega, fun _ => ?_, fun i lower upper => ?_⟩
      · obtain ⟨k, below, zero⟩ := zero (by omega)
        exact ⟨k, below, (above (Int.natCast_nonneg k)).trans zero⟩
      · rw [above lower, above' lower]
        exact agree i lower upper
    · refine ⟨pot.cookieIndex + len, by rw [terminate_cookieIndex, index], fun zero => ?_,
        fun i lower upper => same lower upper⟩
      rw [terminate_cookieIndex, index] at zero
      exact absurd zero empty

theorem Similar.start (h : Similar pot pot') : pot'.start = pot.start := by
  rw [Pot.start, Pot.start, h.index, h.next]

theorem Similar.reach (h : Similar pot pot') (string : AtStart pot n) {i : Int}
    (lower : pot.start ≤ i) (upper : i ≤ pot.start + n) :
    pot'.cookiePot i = pot.cookiePot i := by
  obtain ⟨m, le, zero, agree⟩ := h.agree
  have nonneg := start_nonneg h.sound
  have index_nonneg := h.sound.index_nonneg
  apply agree i (by omega)
  by_cases positive : 0 < pot.cookieIndex
  · have within := string.within positive
    omega
  · -- the string of an empty pot ends before `m`
    obtain ⟨k, below, zero⟩ := zero (by omega)
    have start : pot.start = 0 := start_eq_zero h.sound (by omega)
    have short : n ≤ k := Memory.strlen_le string.strlen (by rwa [start, Int.zero_add])
    omega

theorem Similar.atStart (h : Similar pot pot') (string : AtStart pot n) : AtStart pot' n where
  strlen := by
    rw [h.start]
    exact Memory.strlen_congr string.strlen fun i lower upper => h.reach string lower upper
  le := string.le
  within := by
    rw [h.index, h.start]
    exact string.within

theorem Similar.bytes (h : Similar pot pot') (string : AtStart pot n) (len room : Nat) :
    (copyToUser pot'.cookiePot pot'.start (wanted n len) room).accesses.bytes =
      (copyToUser pot.cookiePot pot.start (wanted n len) room).accesses.bytes := by
  have le : wanted n len ≤ n + 1 := Nat.min_le_left _ _
  rw [copyToUser, copyToUser, Memory.bytes_load, Memory.bytes_load, h.start]
  exact Memory.slice_congr fun i lower upper => h.reach string lower (by omega)

theorem Similar.write (h : Similar pot pot') (buf : List UInt8) (len : Nat) :
    (fortuneWrite pot' buf len).ret = (fortuneWrite pot buf len).ret ∧
      Similar (fortuneWrite pot buf len).pot (fortuneWrite pot' buf len).pot := by
  have outcome := fortuneWrite_cases h.sound buf len
  generalize fortuneWrite pot buf len = write at outcome ⊢
  cases outcome with
  | refused exceeds =>
      rw [fortuneWrite_refused h.sound' (by rw [h.index]; exact exceeds)]
      exact ⟨rfl, h⟩
  | failed room short =>
      rw [fortuneWrite_failed h.sound' (by rw [h.index]; exact room) short]
      exact ⟨rfl, h.failed room short⟩
  | accepted room whole =>
      rw [fortuneWrite_accepted h.sound' (by rw [h.index]; exact room) whole]
      exact ⟨rfl, h.accepted room⟩

theorem Similar.moved {start : Int} (h : Similar pot pot') (nonneg : 0 ≤ start) :
    Similar { pot with nextFortune := start } { pot' with nextFortune := start } :=
  ⟨{ h.sound with next_nonneg := nonneg }, { h.sound' with next_nonneg := nonneg }, h.index, rfl,
    h.agree⟩

theorem Similar.step {next : Pot} {op : Op} {answer : Answer} (h : Similar pot pot')
    (step : (component outside).step pot op = some (next, answer)) :
    ∃ next' answer', (component outside).step pot' op = some (next', answer') ∧
      answer'.reply = answer.reply ∧ Similar next next' := by
  cases op with
  | write buf len =>
      cases step
      obtain ⟨same, similar⟩ := h.write buf len
      exact ⟨_, _, rfl, congrArg Reply.wrote same, similar⟩
  | read ppos len room =>
      by_cases past : 0 < ppos
      · rw [step_past past] at step
        cases step
        exact ⟨_, _, step_past past, rfl, h⟩
      · obtain ⟨n, string⟩ := exists_atStart h.sound
        rw [step_first h.sound string (Int.not_lt.mp past)] at step
        cases step
        refine ⟨_, _, step_first h.sound' (h.atStart string) (Int.not_lt.mp past), ?_, ?_⟩
        · exact congrArg (Reply.gave _ _) (h.bytes string len room)
        · rw [h.start]
          apply h.moved
          have nonneg := start_nonneg h.sound
          split <;> omega

theorem Similar.invisible (h : Similar pot pot') : Invisible outside pot pot' := by
  intro ops
  obtain ⟨last, answers, run, -⟩ := Component.exists_exec (C := component outside) h.sound
    (fun op sound => step_sound sound op) ops
  have simulation : Component.Simulation (component outside) (component outside)
      (fun _ _ _ _ => True) Similar Answer.reply Answer.reply := by
    constructor
    intro s t op s' answer similar step
    obtain ⟨t', answer', step', same, similar'⟩ := similar.step step
    exact ⟨t', answer', step', fun _ => ⟨same, similar'⟩⟩
  obtain ⟨last', answers', run', same, -⟩ := simulation.exec h (Component.always_true ops) run
  rw [replies, replies, run, run', Option.map_some, Option.map_some, same]

theorem copy_similar (sound : Sound pot) (room : len ≤ maxCookieLength - pot.cookieIndex + 1)
    (short : buf.length < len) (positive : 0 < pot.cookieIndex) :
    Similar pot (pot.copy buf len) where
  sound := sound
  sound' := sound.failed room short
  index := rfl
  next := rfl
  agree := ⟨pot.cookieIndex, Int.le_refl _, fun empty => absurd empty (by omega),
    fun _ _ below => copy_below below⟩

theorem copied_string (short : buf.length < len) (empty : pot.cookieIndex = 0) :
    (pot.copy buf len).cookiePot.slice 0 ((cstring buf).length + 1) = cstring buf ++ [0] := by
  rw [← empty]
  exact slice_cstring short

def SameString (pot : Pot) (buf : List UInt8) : Prop :=
  ∃ n, pot.cookiePot.strlen 0 = some n ∧ cstring buf = pot.cookiePot.slice 0 n

theorem SameString.similar (same : SameString pot buf) (sound : Sound pot)
    (room : len ≤ maxCookieLength - pot.cookieIndex + 1) (short : buf.length < len)
    (empty : pot.cookieIndex = 0) : Similar pot (pot.copy buf len) := by
  obtain ⟨n, str, eq⟩ := same
  have length : (cstring buf).length = n := by rw [eq, Memory.length_slice]
  have strings : (pot.copy buf len).cookiePot.slice 0 (n + 1) = pot.cookiePot.slice 0 (n + 1) := by
    rw [(Memory.slice_of_strlen str).1, ← eq, ← length]
    exact copied_string short empty
  refine ⟨sound, sound.failed room short, rfl, rfl, n + 1, by omega, fun _ => ⟨n, by omega, ?_⟩,
    fun i lower upper => Memory.eq_of_slice_eq strings lower (by omega)⟩
  have zero := (Memory.strlen_eq_some.mp str).2.1
  rwa [Int.zero_add] at zero

theorem replies_read (sound : Sound pot) (string : AtStart pot n) :
    replies outside pot [.read 0 (maxCookieLength + 1) (maxCookieLength + 1)] =
      some [.gave (maxCookieLength + 1) 1 (pot.cookiePot.slice pot.start (n + 1))] := by
  have le := string.le
  have whole : wanted n (maxCookieLength + 1) = n + 1 := Nat.min_eq_left (by omega)
  have run : (component outside).exec pot [.read 0 (maxCookieLength + 1) (maxCookieLength + 1)] =
      _ := Component.exec_cons (step_first sound string (Int.le_refl 0)) rfl
  rw [replies, run, Option.map_some, List.map_singleton, Answer.reply]
  dsimp only
  rw [bytes_copyToUser (by omega), whole]
  rfl

theorem sameString_of_invisible (sound : Sound pot)
    (room : len ≤ maxCookieLength - pot.cookieIndex + 1) (short : buf.length < len)
    (empty : pot.cookieIndex = 0) (invisible : Invisible outside pot (pot.copy buf len)) :
    SameString pot buf := by
  have sound' := sound.failed room short
  obtain ⟨n, string⟩ := exists_atStart sound
  obtain ⟨n', string'⟩ := exists_atStart sound'
  have start := start_eq_zero sound empty
  have start' : (pot.copy buf len).start = 0 := start_eq_zero sound' empty
  have le := string'.le
  have str := string.strlen
  have str' := string'.strlen
  have seen := invisible [.read 0 (maxCookieLength + 1) (maxCookieLength + 1)]
  rw [replies_read sound string, replies_read sound' string'] at seen
  rw [start] at str seen
  rw [start'] at str' seen
  simp only [Option.some.injEq, List.cons.injEq, Reply.gave.injEq, true_and, and_true] at seen
  have few := length_cstring_le buf
  have left := Memory.strlen_of_slice (copied_string short empty) zero_not_mem_cstring (by
    unfold maxCookieLength Memory.addressSpace at *
    omega)
  obtain rfl : n' = (cstring buf).length := by
    rw [str'] at left
    exact Option.some.inj left
  -- the read shows the string that the copy has left
  rw [copied_string short empty, (Memory.slice_of_strlen str).1] at seen
  exact ⟨n, str, List.append_cancel_right seen⟩

/-- A failed write leaves no trace exactly when it is refused, or the pot is not empty, or the
string at the start of the pot stays the same. -/
theorem invisible_iff (outside : Memory) (pot : Pot) (h : (component outside).Reachable pot)
    (buf : List UInt8) (len : Nat)
    (fails : (fortuneWrite pot buf len).ret = -enospc ∨ (fortuneWrite pot buf len).ret = -efault) :
    Invisible outside pot (fortuneWrite pot buf len).pot ↔
      full pot.cookieIndex len = true ∨ 0 < pot.cookieIndex ∨ SameString pot buf := by
  have sound := sound h
  have outcome := fortuneWrite_cases sound buf len
  generalize fortuneWrite pot buf len = write at outcome fails ⊢
  rw [full_iff sound.index_nonneg sound.index_le]
  cases outcome with
  | refused exceeds => exact iff_of_true (fun _ => rfl) (.inl exceeds)
  | failed room short =>
      constructor
      · intro invisible
        by_cases positive : 0 < pot.cookieIndex
        · exact .inr (.inl positive)
        · have nonneg := sound.index_nonneg
          exact .inr (.inr (sameString_of_invisible sound room short (by omega) invisible))
      · rintro (exceeds | positive | same)
        · omega
        · exact (copy_similar sound room short positive).invisible
        · by_cases positive : 0 < pot.cookieIndex
          · exact (copy_similar sound room short positive).invisible
          · have nonneg := sound.index_nonneg
            exact (same.similar sound room short (by omega)).invisible
  | accepted room whole =>
      have negative : (len : Int) < 0 := by
        rcases fails with ret | ret <;>
          exact lt_of_eq_of_lt ret (by decide)
      omega

theorem invisible_iff_after_write :
    Invisible 0 (fortuneWrite (Pot.fresh 0) [97, 0] 2).pot
      (fortuneWrite (fortuneWrite (Pot.fresh 0) [97, 0] 2).pot [98, 99] 3).pot :=
  (invisible_iff 0 _ ⟨[.write [97, 0] 2], _, rfl⟩ [98, 99] 3 (.inr rfl)).mpr
    (.inr (.inl (by decide)))

theorem invisible_fails :
    ¬ Invisible 0 (Pot.fresh 0) (fortuneWrite (Pot.fresh 0) [97] 2).pot := by
  intro invisible
  have seen := invisible [.read 0 9 9]
  revert seen
  decide

end OsUnix.Fortune
