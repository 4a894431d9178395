import OsUnix.Kernel.Decimal
import OsUnix.Kernel.SeqFile
import OsUnix.SeqFortune.Queue

/-!
# Reading the file to its end

`my_open` has `single_open` call `my_show`, and `seq_read` may call it more than once. A call whose
output does not fit the buffer has moved `read_index` all the same.
-/

namespace OsUnix.SeqFortune
open Kernel

/-- `my_show` for `seq_read`. An unmapped page follows what `vmalloc` returns, so a string that runs
out of the pot is not read to its end. -/
def display (pot : Pot) : Option (Pot × List UInt8) :=
  (myShow pot).bind fun shown =>
    if shown.scanned.Within 0 cookiePotSize then some (shown.pot, shown.output) else none

def TakesOne (pot : Pot) (cookie : List UInt8) : Prop :=
  ∀ sizes : Nat → Nat, (∀ k, 0 < sizes k) → ∃ n t,
    SeqFile.session display pot ((List.range n).map sizes) =
      some (t, printed pot.readIndex cookie) ∧ t.readIndex = pot.readIndex + cookie.length + 1

variable {pot after : Pot} {queue : Queue} {cookie output : List UInt8} {rest : List (List UInt8)}
  {n : Nat} {low : Int}

theorem length_printed {i : Int} (nonneg : 0 ≤ i) (message : List UInt8) :
    (printed i message).length = (decimal i.toNat).length + message.length + 23 := by
  obtain ⟨n, rfl⟩ := Int.eq_ofNat_of_zero_le nonneg
  have front : "Index is ".toUTF8.toList.length = 9 := length_toUTF8 _
  have middle : ", message is ".toUTF8.toList.length = 13 := length_toUTF8 _
  have back : "\n".toUTF8.toList.length = 1 := length_toUTF8 _
  unfold printed
  rw [bytes_toString, Int.toNat_natCast]
  simp only [List.length_append, front, middle, back]
  omega

theorem display_of_strlen (str : pot.str.strlen pot.readIndex = some n)
    (nonneg : 0 ≤ pot.readIndex) (inside : pot.readIndex + n + 1 ≤ cookiePotSize) :
    display pot = some ({ pot with
        readIndex := if n = 0 then pot.readIndex else pot.readIndex + n + 1 },
      printed pot.readIndex (pot.str.slice pot.readIndex n)) := by
  have within : (pot.str.load pot.readIndex (n + 1)).Within 0 cookiePotSize :=
    Memory.load_within.mono nonneg (by omega)
  rw [display, myShow_of_strlen str nonneg (by omega), Option.bind_some, if_pos within]

theorem display_cases (nonneg : 0 ≤ pot.readIndex) (shows : display pot = some (after, output)) :
    (after.readIndex = pot.readIndex ∧ output = printed pot.readIndex []) ∨
      pot.readIndex < after.readIndex := by
  obtain ⟨shown, moves, guarded⟩ := Option.bind_eq_some_iff.mp shows
  split at guarded
  · rename_i within
    obtain ⟨n, str, rfl⟩ := Option.map_eq_some_iff.mp moves
    have inside : pot.readIndex + n + 1 ≤ cookiePotSize :=
      (within _ (Memory.mem_load (Nat.lt_succ_self n))).2
    rw [display_of_strlen str nonneg inside] at shows
    cases shows
    by_cases zero : n = 0
    · subst zero
      exact .inl ⟨rfl, rfl⟩
    · refine .inr ?_
      simp only [if_neg zero]
      omega
  · cases guarded

theorem fill_past {tries size : Nat} (nonneg : 0 ≤ pot.readIndex)
    (fills : SeqFile.fill display tries size pot = some (after, output)) :
    (after.readIndex = pot.readIndex ∧ output = printed pot.readIndex []) ∨
      pot.readIndex < after.readIndex := by
  obtain ⟨last, le, shows⟩ := SeqFile.exists_shown (I := fun p => pot.readIndex ≤ p.readIndex)
    (Int.le_refl _) (fun {p q _} le shows => by
      rcases display_cases (Int.le_trans nonneg le) shows with ⟨same, -⟩ | moved
      · rwa [same]
      · exact Int.le_of_lt (Int.lt_of_le_of_lt le moved)) fills
  rcases display_cases (Int.le_trans nonneg le) shows with ⟨same, empty⟩ | moved
  · rcases Int.lt_or_eq_of_le le with past | eq
    · exact .inr (same ▸ past)
    · exact .inl ⟨by rw [same, eq], by rw [empty, eq]⟩
  · exact .inr (Int.lt_of_le_of_lt le moved)

theorem display_waiting (rep : Represents pot queue) (waiting : queue.waiting = cookie :: rest)
    (nonempty : cookie ≠ []) :
    display pot = some ({ pot with readIndex := pot.readIndex + cookie.length + 1 },
      printed pot.readIndex cookie) := by
  obtain ⟨str, bytes⟩ := rep.strlen waiting
  have lt := rep.index_lt waiting
  obtain ⟨nonneg, -, le⟩ := rep.bounds
  have length : cookie.length ≠ 0 := mt List.length_eq_zero_iff.mp nonempty
  rw [display_of_strlen str nonneg (by omega), if_neg length, bytes]

theorem takesOne_of_fits (rep : Represents pot queue) (waiting : queue.waiting = cookie :: rest)
    (nonempty : cookie ≠ []) (fits : (printed pot.readIndex cookie).length < pageSize) :
    TakesOne pot cookie := by
  intro sizes positive
  have fills := SeqFile.fill_fits 18 (display_waiting rep waiting nonempty) fits
  refine ⟨(printed pot.readIndex cookie).length + 1, _, SeqFile.session_eq fills ?_ ?_, rfl⟩
  · exact List.forall_mem_map.mpr fun k _ => positive k
  · simp

theorem not_takesOne_of_full (rep : Represents pot queue) (waiting : queue.waiting = cookie :: rest)
    (nonempty : cookie ≠ []) (full : pageSize ≤ (printed pot.readIndex cookie).length) :
    ¬ TakesOne pot cookie := by
  intro takes
  obtain ⟨n, t, session, index⟩ := takes (fun _ => 1) fun _ => Nat.one_pos
  have fills := SeqFile.fill_of_session (List.forall_mem_map.mpr fun _ _ => Nat.one_pos) session
  rw [SeqFile.maxDoublings, SeqFile.fill_again (display_waiting rep waiting nonempty) full] at fills
  have nonneg := rep.bounds.1
  have past : 0 ≤ pot.readIndex + cookie.length + 1 := by omega
  rcases fill_past past fills with ⟨-, empty⟩ | moved
  · have small := (length_decimal_le (n := (pot.readIndex + cookie.length + 1).toNat)
      (m := 4) (by decide)).mpr (by
        have := rep.index_lt waiting
        have := rep.bounds.2.2
        unfold cookiePotSize at this
        omega)
    rw [empty, length_printed past, List.length_nil, pageSize] at full
    omega
  · exact absurd moved (by rw [index]; exact Int.lt_irrefl _)

/-- A session takes one cookie exactly when the line that is printed for it is shorter than a
page. -/
theorem takesOne_iff (rep : Represents pot queue) (waiting : queue.waiting = cookie :: rest)
    (nonempty : cookie ≠ []) : TakesOne pot cookie ↔
      (decimal pot.readIndex.toNat).length + cookie.length + 23 < pageSize := by
  rw [← length_printed rep.bounds.1]
  constructor
  · intro takes
    by_contra full
    exact not_takesOne_of_full rep waiting nonempty (Nat.le_of_not_lt full) takes
  · exact takesOne_of_fits rep waiting nonempty

theorem takesOne_short : TakesOne (myWrite (.fresh 0) [98, 10] 2).pot [98] :=
  (takesOne_iff (Represents.fresh.accepted (by decide) (by decide) (by decide) (by decide)) rfl
    (by decide)).mpr (by decide)

def long : List UInt8 := List.replicate 4080 97

theorem takesOne_fails : ∃ queue, Represents (myWrite (.fresh 0) (long ++ [10]) 4081).pot queue ∧
    queue.waiting = [long] ∧ ¬ TakesOne (myWrite (.fresh 0) (long ++ [10]) 4081).pot long := by
  have message : (long ++ [10]).take (4081 - 1) = long := List.take_left' List.length_replicate
  have whole : 4081 ≤ (long ++ [10]).length := by
    rw [List.length_append, long, List.length_replicate]
    exact Nat.le_refl 4081
  have free : 0 ∉ (long ++ [10]).take (4081 - 1) := by
    rw [message]
    exact fun zero => absurd (List.eq_of_mem_replicate zero) (by decide)
  have rep : Represents (myWrite (.fresh 0) (long ++ [10]) 4081).pot _ :=
    Represents.fresh.accepted (by decide) (by decide) whole free
  rw [message] at rep
  refine ⟨_, rep, rfl, not_takesOne_of_full rep rfl nofun ?_⟩
  rw [length_printed rep.bounds.1, long, List.length_replicate, pageSize]
  omega

end OsUnix.SeqFortune
