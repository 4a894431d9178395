import OsUnix.SelectServer.Tracking

/-!
# Allocating a slot

`connection` on any table at all. Only slot 0 is ever written; the loop then runs to the first free
slot behind it, and out of the table where there is none.
-/

namespace OsUnix.SelectServer
open Kernel

variable {client : Nat → Int} {connfd sockfd i k n : Nat} {it : Iteration} {rset : Finset Nat}
  {s t : Server} {log : Log} {code : Option Errno}

structure Allocates (connfd : Nat) (s t : Server) (code : Option Errno) : Prop where
  stored : (∃ i < fdSetSize, s.client i < 0) → ∃ i < fdSetSize, s.client i < 0 ∧
    t.client i = connfd ∧ ∀ j, j ≠ i → t.client j = s.client j
  full : (∀ i < fdSetSize, 0 ≤ s.client i) → code ≠ none ∧ t.client = s.client ∧
    t.allset = s.allset ∧ t.maxfd = s.maxfd ∧ t.maxi = s.maxi ∧ t.pidClient = s.pidClient

def AllocatesSlot (connfd : Nat) (it : Iteration) (s : Server) : Prop :=
  ∃ t log code, connected connfd it s = some (t, log, code) ∧ Allocates connfd s t code

theorem search_next (taken : 0 ≤ client i) : search client connfd (n + 1) i =
    if 0 ≤ client (i + 1) then search client connfd n (i + 1) else some (client, i + 1) := by
  rw [search, if_neg (Int.not_lt.mpr taken)]

theorem search_none (taken : ∀ j, i ≤ j → j ≤ i + n → 0 ≤ client j) :
    search client connfd n i = none := by
  induction n generalizing i with
  | zero => rfl
  | succ n ih =>
      rw [search_next (taken i (Nat.le_refl i) (by omega)), if_pos (taken (i + 1) (by omega)
        (by omega))]
      exact ih fun j lower upper => taken j (by omega) (by omega)

theorem search_some (inside : k < n) (taken : ∀ j, i ≤ j → j < i + k + 1 → 0 ≤ client j)
    (free : client (i + k + 1) < 0) :
    search client connfd n i = some (client, i + k + 1) := by
  induction k generalizing n i with
  | zero =>
      obtain ⟨n, rfl⟩ := Nat.exists_eq_succ_of_ne_zero (Nat.ne_of_gt inside)
      rw [search_next (taken i (Nat.le_refl i) (by omega)), if_neg (Int.not_le.mpr free)]
  | succ k ih =>
      obtain ⟨n, rfl⟩ := Nat.exists_eq_succ_of_ne_zero (Nat.ne_of_gt (Nat.zero_lt_of_lt inside))
      have shift : i + (k + 1) + 1 = i + 1 + k + 1 := by omega
      rw [shift] at free ⊢
      rw [search_next (taken i (Nat.le_refl i) (by omega)), if_pos (taken (i + 1) (by omega)
        (by omega))]
      exact ih (by omega) (fun j lower upper => taken j (by omega) (by omega)) free

theorem table_nonneg : 0 ≤ s.table connfd 0 := by
  rw [Server.table]
  split
  · rw [Function.update_self]
    exact Int.natCast_nonneg connfd
  · exact Int.not_lt.mp ‹_›

theorem table_rest (behind : i ≠ 0) : s.table connfd i = s.client i := by
  rw [Server.table]
  split
  · exact Function.update_of_ne behind ..
  · rfl

theorem search_table : search s.client connfd n 0 = search (s.table connfd) connfd n 0 := by
  cases n with
  | zero => rfl
  | succ n =>
      rw [search_next table_nonneg, search]
      rfl

structure FirstFree (s : Server) (i : Nat) : Prop where
  behind : 0 < i
  inside : i < fdSetSize
  free : s.client i < 0
  taken : ∀ j, 0 < j → j < i → 0 ≤ s.client j

theorem search_first (first : FirstFree s i) :
    search s.client connfd (fdSetSize - 1) 0 = some (s.table connfd, i) := by
  obtain ⟨k, rfl⟩ := Nat.exists_eq_succ_of_ne_zero (Nat.ne_of_gt first.behind)
  have inside := first.inside
  have reached : 0 + k + 1 = k + 1 := by omega
  rw [search_table, search_some (k := k) (by omega), reached]
  · intro j _ below
    rcases Nat.eq_zero_or_pos j with rfl | behind
    · exact table_nonneg
    · rw [table_rest (Nat.ne_of_gt behind)]
      exact first.taken j behind (by omega)
  · rw [reached, table_rest (Nat.succ_ne_zero k)]
    exact first.free

theorem search_full (taken : ∀ j, 0 < j → j < fdSetSize → 0 ≤ s.client j) :
    search s.client connfd (fdSetSize - 1) 0 = none := by
  rw [search_table]
  refine search_none fun j _ below => ?_
  rcases Nat.eq_zero_or_pos j with rfl | behind
  · exact table_nonneg
  · rw [table_rest (Nat.ne_of_gt behind)]
    exact taken j behind (by unfold fdSetSize at *; omega)

theorem exists_firstFree (inside : i < fdSetSize) (behind : 0 < i) (free : s.client i < 0) :
    ∃ j ≤ i, FirstFree s j := by
  have some_free : ∃ j, 0 < j ∧ s.client j < 0 := ⟨i, behind, free⟩
  obtain ⟨positive, here⟩ := Nat.find_spec some_free
  have le := Nat.find_min' some_free ⟨behind, free⟩
  refine ⟨Nat.find some_free, le, positive, by omega, here, fun j behind below => ?_⟩
  exact Int.not_lt.mp fun free => Nat.find_min some_free below ⟨behind, free⟩

theorem connected_full (taken : ∀ j, 0 < j → j < fdSetSize → 0 ≤ s.client j) :
    connected connfd it s = none := by
  rw [connected, search_full taken, Option.bind_none]

theorem connected_eq_none (first : FirstFree s i) (outside : ¬ (connfd < fdSetSize ∧ i < clients)) :
    connected connfd it s = none := by
  rw [connected, search_first first, Option.bind_some]
  exact (if_neg (Nat.ne_of_lt first.inside)).trans (if_neg outside)

theorem connected_client (it : Iteration) (first : FirstFree s i)
    (inside : connfd < fdSetSize ∧ i < clients) :
    ∃ t log, connected connfd it s = some (t, log, none) ∧ t.client = s.table connfd := by
  rw [connected, search_first first, Option.bind_some]
  exact ⟨_, _, (if_neg (Nat.ne_of_lt first.inside)).trans (if_pos inside), rfl⟩

theorem free_of_stored (client : t.client = s.table connfd) (free : s.client i < 0)
    (stored : t.client i = connfd) : s.client 0 < 0 := by
  by_contra taken
  rw [client, Server.table, if_neg taken] at stored
  omega

/-- A slot is allocated exactly when slot 0 is free, `pid_client` has an entry for the first free
slot behind it, and `connfd` fits a descriptor set. -/
theorem allocatesSlot_iff (connfd : Nat) (it : Iteration) (s : Server) :
    AllocatesSlot connfd it s ↔ s.client 0 < 0 ∧
      (∃ i, 0 < i ∧ i < clients ∧ s.client i < 0) ∧ connfd < fdSetSize := by
  constructor
  · rintro ⟨t, log, code, result, allocates⟩
    have some_free : ∃ i, 0 < i ∧ i < fdSetSize ∧ s.client i < 0 := by
      by_contra none_free
      simp only [not_exists, not_and, Int.not_lt] at none_free
      rw [connected_full none_free] at result
      cases result
    obtain ⟨i, behind, inside, free⟩ := some_free
    obtain ⟨j, -, first⟩ := exists_firstFree inside behind free
    have bounds : connfd < fdSetSize ∧ j < clients := by
      by_contra outside
      rw [connected_eq_none first outside] at result
      cases result
    obtain ⟨t', log', result', client⟩ := connected_client it first bounds
    rw [result] at result'
    cases result'
    obtain ⟨m, -, unused, stored, -⟩ := allocates.stored ⟨j, first.inside, first.free⟩
    exact ⟨free_of_stored client unused stored, ⟨j, first.behind, bounds.2, first.free⟩, bounds.1⟩
  · rintro ⟨free, ⟨i, behind, below, unused⟩, fits⟩
    have inside : i < fdSetSize := Nat.lt_trans below (by decide)
    obtain ⟨j, le, first⟩ := exists_firstFree inside behind unused
    obtain ⟨t, log, result, client⟩ :=
      connected_client it first ⟨fits, Nat.lt_of_le_of_lt le below⟩
    refine ⟨t, log, none, result, fun _ => ⟨0, by decide, free, ?_, fun j other => ?_⟩,
      fun taken => absurd free (Int.not_lt.mpr (taken 0 (by decide)))⟩
    · rw [client, Server.table, if_pos free, Function.update_self]
    · rw [client, table_rest other]

theorem allocatesSlot_fails :
    ¬ AllocatesSlot 5 (visitor 54)
      { Server.start 3 with client := Function.update (fun _ => -1) 0 4 } ∧
    ¬ AllocatesSlot 5 (visitor 54) { Server.start 3 with client := fun i => i + 4 } := by
  constructor
  · rintro ⟨t, log, code, result, allocates⟩
    cases result
    obtain ⟨i, -, unused, stored, -⟩ := allocates.stored ⟨1, by decide, by decide⟩
    have taken : ¬ (Function.update (fun _ => -1) 0 4 : Nat → Int) 0 < 0 := by decide
    exact taken (free_of_stored (s := { Server.start 3 with client := _ }) rfl unused stored)
  · rintro ⟨t, log, code, result, -⟩
    have full : connected 5 (visitor 54) { Server.start 3 with client := fun i => i + 4 } = none :=
      connected_full fun j _ _ => by
        show (0 : Int) ≤ j + 4
        omega
    rw [full] at result
    cases result

end OsUnix.SelectServer
