import OsUnix.Daemon.Detach

/-!
# Which descriptors are left

The loop closes what lies below the hard limit, or below 1024. What lies above stays open, and the
daemon goes on with it unless it is in the way of the three new descriptors.
-/

namespace OsUnix.Daemon
open Kernel

variable {t u : Table File} {n i limit : Nat} {rlimMax : UInt64} {copy : Copy}

def above (limit : Nat) (t : Table File) : Table File :=
  { t with opened := t.opened.filter (limit ≤ ·) }

theorem closing_eq (lower : i < 2 ^ 31) : closing n i t =
    if i + n < 2 ^ 31 then some { t with opened := t.opened.filter fun fd => fd < i ∨ i + n ≤ fd }
    else none := by
  induction n generalizing i t with
  | zero =>
      have all : t.opened.filter (fun fd => fd < i ∨ i + 0 ≤ fd) = t.opened :=
        Finset.filter_true_of_mem fun fd _ => Nat.lt_or_ge fd i
      rw [closing, if_pos (by omega), all]
  | succ n ih =>
      rw [closing]
      by_cases next : i + 1 < 2 ^ 31
      · have same : (t.close i).opened.filter (fun fd => fd < i + 1 ∨ i + 1 + n ≤ fd) =
            t.opened.filter fun fd => fd < i ∨ i + (n + 1) ≤ fd := by
          ext fd
          simp only [Table.close, Finset.mem_filter, Finset.mem_erase]
          constructor
          · rintro ⟨⟨other, mem⟩, bound⟩
            exact ⟨mem, by omega⟩
          · rintro ⟨mem, bound⟩
            exact ⟨⟨by omega, mem⟩, by omega⟩
        rw [if_pos next, ih next, same, Nat.add_right_comm i 1 n, Nat.add_assoc]
        rfl
      · rw [if_neg next, if_neg (by omega)]

theorem closing_start : closing limit 0 t =
    if limit < 2 ^ 31 then some (above limit t) else none := by
  rw [closing_eq (by decide)]
  simp [above]

theorem detach_eq : detach rlimMax t =
    if closeLimit rlimMax < 2 ^ 31 then some (attach (above (closeLimit rlimMax) t)) else none := by
  rw [detach, closing_start]
  split <;> rfl

theorem attach_taken (taken : ∃ fd ∈ t.opened, fd ≤ 2) : attach t = .exited := by
  obtain ⟨fd, mem, low⟩ := taken
  obtain rfl | rfl | rfl : fd = 0 ∨ fd = 1 ∨ fd = 2 := by omega
  · exact if_pos (.inl (install_ne mem))
  · exact if_pos (.inr (.inl (dup_ne (mem_install mem))))
  · exact if_pos (.inr (.inr (dup_ne (mem_dup (mem_install mem)))))

theorem attach_free (free : ∀ fd ∈ t.opened, 2 < fd) :
    ∃ u, attach t = .returned u ∧ u.opened = insert 2 (insert 1 (insert 0 t.opened)) ∧
      ∀ fd ≤ 2, u.file fd = .null := by
  have outside (fd : Nat) (low : fd ≤ 2) : fd ∉ t.opened := fun mem =>
    absurd (free fd mem) (Nat.not_lt.mpr low)
  let file₀ := Function.update t.file 0 .null
  let file₁ := Function.update file₀ 1 (file₀ 0)
  have first : t.install .null = (0, ⟨insert 0 t.opened, file₀⟩) :=
    install_eq (outside 0 (by decide)) nofun
  have second := @dup_eq _ ⟨insert 0 t.opened, file₀⟩ 1 0 (by simp) (by simp [outside]) (by simp)
  have third := @dup_eq _ ⟨insert 1 (insert 0 t.opened), file₁⟩ 2 0 (by simp) (by simp [outside])
    (by simp; omega)
  refine ⟨⟨insert 2 (insert 1 (insert 0 t.opened)), Function.update file₁ 2 (file₁ 0)⟩, ?_, rfl, ?_⟩
  · rw [attach, first, second, third]
    rfl
  · intro fd low
    obtain rfl | rfl | rfl : fd = 0 ∨ fd = 1 ∨ fd = 2 := by omega
    all_goals rfl

theorem daemonize_eq : copy.daemonize rlimMax t =
    (detach rlimMax t).map (log copy.connects) := by
  cases copy with
  | lab1 listening => rfl
  | lab4 =>
      have same : log false = id := by
        funext outcome
        cases outcome <;> rfl
      simp [Copy.daemonize, Lab4.daemonize, Copy.connects, same]

theorem syslog_opened {listening : Bool} (three : {0, 1, 2} ⊆ u.opened) :
    (syslog listening u).opened = {0, 1, 2} ↔ u.opened = {0, 1, 2} ∧ listening = false := by
  cases listening with
  | false => simp [syslog]
  | true =>
      simp only [Bool.true_eq_false, and_false, iff_false]
      intro same
      have new : lowestFree u.opened ∈ (syslog true u).opened := Finset.mem_insert_self _ _
      exact lowestFree_notMem (three (same ▸ new))

theorem attach_hygienic (listening : Bool) : Hygienic (some (log listening (attach t))) ↔
    (∃ fd ∈ t.opened, fd ≤ 2) ∨ t.opened = ∅ ∧ listening = false := by
  by_cases taken : ∃ fd ∈ t.opened, fd ≤ 2
  · rw [attach_taken taken]
    exact iff_of_true trivial (.inl taken)
  · have free : ∀ fd ∈ t.opened, 2 < fd := by simpa using taken
    obtain ⟨u, attached, opened, null⟩ := attach_free free
    have three : {0, 1, 2} ⊆ u.opened := by
      rw [opened]
      intro fd mem
      simp only [Finset.mem_insert, Finset.mem_singleton] at mem ⊢
      omega
    have only : u.opened = {0, 1, 2} ↔ t.opened = ∅ := by
      constructor
      · intro same
        refine Finset.eq_empty_of_forall_notMem fun fd mem => ?_
        have inside : fd ∈ u.opened := by simp [opened, mem]
        have high := free fd mem
        rw [same] at inside
        simp only [Finset.mem_insert, Finset.mem_singleton] at inside
        omega
      · intro empty
        rw [opened, empty]
        decide
    simp only [taken, false_or, attached, log, Hygienic, syslog_opened three, only]
    constructor
    · exact And.left
    · rintro ⟨empty, quiet⟩
      refine ⟨⟨empty, quiet⟩, fun fd mem => ?_⟩
      rw [quiet] at mem ⊢
      apply null
      have low : fd ∈ ({0, 1, 2} : Finset Nat) := only.mpr empty ▸ mem
      simp only [Finset.mem_insert, Finset.mem_singleton] at low
      omega

theorem hygienic_detach (listening : Bool) :
    Hygienic ((detach rlimMax t).map (log listening)) ↔ closeLimit rlimMax < 2 ^ 31 ∧
      ((∃ fd ∈ t.opened, fd ≤ 2 ∧ closeLimit rlimMax ≤ fd) ∨
        (∀ fd ∈ t.opened, fd < closeLimit rlimMax) ∧ listening = false) := by
  rw [detach_eq]
  split
  · rename_i small
    rw [Option.map_some, attach_hygienic]
    simp only [above, Finset.mem_filter, Finset.filter_eq_empty_iff, small, true_and, not_le,
      and_assoc, and_comm (a := closeLimit rlimMax ≤ _)]
  · rename_i large
    exact iff_of_false id fun closed => large closed.1

/-- A daemon has exactly its three descriptors, unless it exits, if and only if the limit closes all
that is open or leaves one of these three, `i` does not overflow and no message opens another. -/
theorem hygienic_iff (copy : Copy) (rlimMax : UInt64) (t : Table File) :
    Hygienic (copy.daemonize rlimMax t) ↔ closeLimit rlimMax < 2 ^ 31 ∧
      ((∃ fd ∈ t.opened, fd ≤ 2 ∧ closeLimit rlimMax ≤ fd) ∨
        (∀ fd ∈ t.opened, fd < closeLimit rlimMax) ∧ copy.connects = false) := by
  rw [daemonize_eq, hygienic_detach]

def inherited : Table File := ⟨{0, 1, 2, 1024}, .other⟩

theorem hygienic_fails : ¬ Hygienic (Copy.daemonize .lab4 rlimInfinity inherited) ∧
    ¬ Hygienic (Copy.daemonize (.lab1 false) 64 inherited) := by
  constructor
  · rw [daemonize_eq, hygienic_detach]
    decide
  · rw [daemonize_eq, hygienic_detach]
    decide

end OsUnix.Daemon
