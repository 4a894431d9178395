import OsUnix.Concurrency.Fairness
import OsUnix.EventRW.LostWrite
import OsUnix.EventRW.Progress
import Mathlib.Order.Filter.Finite

/-!
# Readers that never end

The readers go on until `buffer` is what the writers have written altogether. After a lost write it
never is.
-/

namespace OsUnix.EventRW
open Concurrency Filter Finset

variable {readers writers : Nat} {s t : State readers writers} {i j : Thread readers writers}
  {n : Nat} {bound : Nat} {g g' : Shared (Thread readers writers)} {l l' : Local} {a : Action}

abbrev Endless (readers writers : Nat) :=
  (system readers writers).Endless (system readers writers).init

variable {p : Endless readers writers}

theorem moved (p : Endless readers writers) (n : Nat) : ∃ g l a,
    Move (p.mover n) (iters * writers) (p.state n).shared ((p.state n).locals (p.mover n)) g l a ∧
      p.state (n + 1) = (p.state n).move (p.mover n) g l a := next_cases (p.next n)

/-! ## The mutex comes free again and again -/

def Local.ahead : Local → Nat
  | .reader .lock | .reader .returned | .writer .lock _ | .writer .returned _ => 0
  | .reader .guard | .writer .guard _ => 1
  | .reader .setWrite | .writer .setRead _ | .writer .setWrite _ => 2
  | .reader .testNr | .writer .testWaiting _ => 3
  | .reader .decNr | .writer .clearWrt _ => 4
  | .reader .print | .writer .print _ => 5
  | .reader .release | .writer (.store _) _ => 6
  | .reader .set | .writer .load _ => 7
  | .reader .incNr | .writer .release _ => 8
  | .reader .decWaiting | .writer .setWrt _ => 9
  | .reader .reset | .writer .decWaiting _ => 10
  | .reader .wait | .writer .reset _ => 11
  | .reader .testWaiting | .writer .wait _ => 12
  | .reader .testWrt | .writer .testWrt _ => 13
  | .reader .incWaiting | .writer .testNr _ => 14
  | .writer .incWaiting _ => 15

theorem ahead_falls (move : Move i bound g l g' l' a) (ahead : l.ahead ≠ 0) :
    l'.ahead < l.ahead := by
  cases move with
  | readerLock | writerLock => exact absurd rfl ahead
  | _ => simp [Local.ahead]

theorem takes_of_ahead (move : Move i bound g l g' l' a) (none : l.ahead = 0) :
    ∃ m, g.rwMutex.wait i = some m := by
  cases move with
  | readerLock took | writerLock took => exact ⟨_, took⟩
  | _ => cases none

theorem writer_goes_on (p : Endless readers writers) (i : Thread readers writers) (k : Nat) :
    ∃ᶠ m in atTop, (p.state m).locals i = .writer .wait k →
      (system readers writers).Enabled (p.state m) i := by
  by_contra seldom
  simp only [not_frequently, Classical.not_imp] at seldom
  refine p.not_always_falls (fun s => ∑ j, (s.locals j).ahead) (seldom.mono fun m stuck => ?_)
  obtain ⟨at_wait, blocked⟩ := stuck
  obtain ⟨g, l, a, move, eq⟩ := moved p m
  have owner := (guards (p.reachable m)).owner_iff i |>.mp (by rw [at_wait]; rfl)
  have other : p.mover m ≠ i := fun same => blocked
    (Option.isSome_iff_exists.mpr ⟨_, same ▸ p.next m⟩)
  have ahead : ((p.state m).locals (p.mover m)).ahead ≠ 0 := by
    intro none
    obtain ⟨_, took⟩ := takes_of_ahead move none
    simp [Mutex.wait, owner, other.symm] at took
  have lower := ahead_falls move ahead
  have sum := sum_update Local.ahead (p.state m).locals (p.mover m) l
  rw [eq, Config.move_locals]
  omega

theorem often_enabled_owning (p : Endless readers writers) (owning : l.owning = true) :
    ∃ᶠ m in atTop, (p.state m).locals i = l → (system readers writers).Enabled (p.state m) i := by
  by_cases waits : (∃ k, l = .writer .wait k) ∨ l = .reader .wait
  · rcases waits with ⟨k, rfl⟩ | rfl
    · exact writer_goes_on p i k
    · exact Frequently.of_forall fun m at_wait => reader_not_blocked (p.reachable m) at_wait
  · refine Frequently.of_forall fun m at_l => enabled_of_running ?_ ?_ <;> rw [at_l] <;>
      cases l with
      | reader pc => cases pc <;> simp_all [Local.owning, Local.blocking, Local.returned]
      | writer pc k => cases pc <;> simp_all [Local.owning, Local.blocking, Local.returned]

theorem free_again (fair : p.Fair) : ∃ᶠ n in atTop, (p.state n).shared.rwMutex.owner = none := by
  refine frequently_atTop.mpr fun n => ?_
  rcases (guards (p.reachable n)).owner_cases with free | ⟨i, owner⟩
  · exact ⟨n, le_rfl, free⟩
  · have owning := (guards (p.reachable n)).owner_iff i |>.mpr owner
    obtain ⟨m, later, inside, mover, out⟩ := fair.leaves (P := fun l => l.owning = true) Local.ahead
      (fun l owning => often_enabled_owning p owning)
      (fun step owning => ahead_falls (step_iff.mp step) (by
        rename_i l _ _ _
        cases l with
        | reader pc => cases pc <;> simp_all [Local.owning, Local.ahead]
        | writer pc k => cases pc <;> simp_all [Local.owning, Local.ahead])) owning
    refine ⟨m + 1, Nat.le_succ_of_le later, (guards (p.reachable _)).free_iff.mpr fun j => ?_⟩
    by_cases same : j = i
    · rw [same]
      exact Bool.eq_false_iff.mpr out
    · rw [System.Endless.stays (mover ▸ Ne.symm same), Bool.eq_false_iff]
      exact fun owning' => same ((guards (p.reachable m)).unique owning' inside)

theorem often_enabled (fair : p.Fair) (unfinished : l.returned = false) :
    ∃ᶠ m in atTop, (p.state m).locals i = l → (system readers writers).Enabled (p.state m) i := by
  by_cases owning : l.owning = true
  · exact often_enabled_owning p owning
  · refine (free_again fair).mono fun m free at_l => ?_
    by_cases blocking : l.blocking = true
    · rw [System.enabled_iff, at_l]
      cases l with
      | reader pc =>
          cases pc <;> simp_all [Local.blocking, Local.owning, system, reader, Mutex.wait]
      | writer pc k =>
          cases pc <;> simp_all [Local.blocking, Local.owning, system, writer, Mutex.wait]
    · exact enabled_of_running (by rw [at_l]; simpa using blocking) (by rw [at_l]; exact unfinished)

/-! ## The writers return -/

def Local.pass : Local → Nat
  | .writer _ k => k
  | .reader _ => 0

def Local.place : Local → Nat
  | .writer .guard _ => 16
  | .writer .lock _ => 15
  | l => l.ahead - 1

def Local.left (l : Local) : Nat := (iters - l.pass) * 17 + l.place

theorem left_falls (move : Move i bound g l g' l' a) (loop : l.InLoop)
    (writer : l.isWriter = true) : l'.left < l.left := by
  cases move with
  | setRead | setWrite =>
      have loop : _ < iters := loop
      simp only [Local.left, Local.pass, Local.place, Local.ahead]
      omega
  | writerGuard | writerReturn | writerLock | writerIncWaiting | writerAfterReaders | writerTestNr
  | writerAfterWriter | writerTestWrt | writerWait | writerReset | writerDecWaiting | setWrt
  | writerRelease | load | store | writerPrint | clearWrt | chooseRead | chooseWrite =>
      exact Nat.add_lt_add_left (by simp [Local.place, Local.ahead]) _
  | _ => cases writer

theorem stays_returned (returned : ((p.state n).locals i).returned = true) {m : Nat}
    (later : n ≤ m) : ((p.state m).locals i).returned = true := by
  induction m, later using Nat.le_induction with
  | base => exact returned
  | succ m later ih =>
      rw [System.Endless.stays, ih]
      rintro rfl
      obtain ⟨g, l, a, move, -⟩ := moved p m
      generalize (p.state m).locals (p.mover m) = l₀ at move ih
      cases move <;> cases ih

theorem writers_return (fair : p.Fair) : ∀ᶠ n in atTop, AllWritersReturned (p.state n) := by
  refine eventually_all.mpr fun w => ?_
  by_contra never
  rw [not_eventually] at never
  obtain ⟨n, unfinished⟩ := never.exists
  obtain ⟨m, -, -, -, arrived⟩ := fair.leaves (i := .inr w) Local.left
    (P := fun l => l.returned = false ∧ l.InLoop ∧ l.isWriter = true)
    (fun l inside => often_enabled fair inside.1)
    (fun step inside => left_falls (step_iff.mp step) inside.2.1 inside.2.2)
    (n := n) ⟨Bool.eq_false_iff.mpr unfinished, inLoop (p.reachable n) _,
      isWriter_eq (p.reachable n) _⟩
  have returned : ((p.state (m + 1)).locals (.inr w)).returned = true := by
    by_contra unfinished
    exact arrived ⟨Bool.eq_false_iff.mpr unfinished, inLoop (p.reachable _) _,
      isWriter_eq (p.reachable _) _⟩
  exact never (eventually_atTop.mpr ⟨m + 1, fun k later =>
    not_not.mpr (stays_returned returned later)⟩)

/-! ## The readers go on -/

theorem returned_stops (move : Move i bound g l g' l' a) : l.returned = false := by
  cases move <;> rfl

theorem is_reader (finished : AllWritersReturned s) (h : (system readers writers).Reachable s)
    (move : Move i bound g (s.locals i) g' l' a) : (s.locals i).isWriter = false := by
  rw [isWriter_eq h]
  cases i with
  | inl r => rfl
  | inr w => exact absurd (finished w) (by rw [returned_stops move]; decide)

theorem finished_kept (finished : AllWritersReturned s) (h : (system readers writers).Reachable s)
    (next : (system readers writers).next s i = some t) :
    AllWritersReturned t ∧ t.shared.buffer = s.shared.buffer := by
  obtain ⟨g, l, a, move, rfl⟩ := next_cases next
  have reader := is_reader finished h move
  constructor
  · intro w
    have other : Sum.inr w ≠ i := by
      rintro rfl
      rw [isWriter_eq h] at reader
      cases reader
    rw [Config.move_locals, Function.update_of_ne other]
    exact finished w
  · generalize s.locals i = l₀ at move reader
    cases move with
    | store => cases reader
    | _ => rfl

def Local.rest : Local → Nat
  | .reader .lock => 15
  | l => l.ahead

theorem rest_falls (move : Move i bound g l g' l' a) (reader : l.isWriter = false)
    (last : bound ≤ g.buffer.toNat) : l'.rest < l.rest := by
  cases move with
  | readerGuard more => omega
  | readerReturn | readerLock | readerIncWaiting | readerMustWait | readerTestWrt | readerGivesWay
  | readerTestWaiting | readerWait | readerReset | readerDecWaiting | incNr | readerSet
  | readerRelease | readerPrint | decNr | readerLast | readerNotLast | readerSetWrite =>
      simp [Local.rest, Local.ahead]
  | _ => cases reader

theorem readers_go_on (fair : p.Fair) : ∀ᶠ n in atTop, AllWritersReturned (p.state n) ∧
    (p.state n).shared.buffer.toNat < iters * writers := by
  obtain ⟨n, finished⟩ := eventually_atTop.mp (writers_return fair)
  have same (m : Nat) (later : n ≤ m) :
      (p.state m).shared.buffer = (p.state n).shared.buffer := by
    induction m, later using Nat.le_induction with
    | base => rfl
    | succ m later ih =>
        rw [(finished_kept (finished m later) (p.reachable m) (p.next m)).2, ih]
  refine eventually_atTop.mpr ⟨n, fun m later => ⟨finished m later, ?_⟩⟩
  by_contra last
  refine p.not_always_falls (fun s => ∑ j, (s.locals j).rest)
    (eventually_atTop.mpr ⟨n, fun k from_n => ?_⟩)
  obtain ⟨g, l, a, move, eq⟩ := moved p k
  have lower := rest_falls move (is_reader (finished k from_n) (p.reachable k) move)
    (by rw [same k from_n, ← same m later]; exact not_lt.mp last)
  have sum := sum_update Local.rest (p.state k).locals (p.mover k) l
  rw [eq, Config.move_locals]
  omega

/-! ## A reader returns only when nothing is left to store -/

theorem stores_le (h : (system readers writers).Reachable s) :
    ∑ i, (s.locals i).stores ≤ iters * writers := by
  rw [Fintype.sum_sum_type]
  have readers_none (r : Fin readers) : (s.locals (.inl r)).stores = 0 := by
    have role := isWriter_eq h (.inl r)
    generalize s.locals (.inl r) = l at role
    cases l with
    | reader pc => rfl
    | writer pc k => cases role
  have writers_few (w : Fin writers) : (s.locals (.inr w)).stores ≤ iters := by
    have loop := inLoop h (.inr w)
    generalize s.locals (.inr w) = l at loop
    cases l with
    | reader pc => exact Nat.zero_le _
    | writer pc k =>
        cases pc <;> simp only [Local.InLoop] at loop <;> simp only [Local.stores] <;> omega
  have few := sum_le_card_nsmul univ (fun w => (s.locals (.inr w)).stores) iters
    fun w _ => writers_few w
  rw [sum_eq_zero fun r _ => readers_none r, Nat.zero_add]
  simpa [Nat.mul_comm] using few

structure Behind (s : State readers writers) : Prop where
  loaded : ∀ i k tmp, s.locals i = .writer (.store tmp) k → tmp.toNat ≤ ∑ j, (s.locals j).stores
  buffer : s.shared.buffer.toNat ≤ ∑ j, (s.locals j).stores
  readers : ∀ r, s.locals (.inl r) = .reader .returned → iters * writers ≤ s.shared.buffer.toNat

theorem Behind.keep (behind : Behind s) (buffer : g.buffer = s.shared.buffer)
    (stores : l.stores = (s.locals i).stores)
    (loads : ∀ k tmp, l = .writer (.store tmp) k → tmp = s.shared.buffer)
    (returns : l = .reader .returned → iters * writers ≤ s.shared.buffer.toNat) :
    Behind (s.move i g l a) := by
  have sum := sum_update Local.stores s.locals i l
  have same : ∑ j, (Function.update s.locals i l j).stores = ∑ j, (s.locals j).stores := by
    omega
  refine ⟨fun j k tmp at_j => ?_, ?_, fun r at_r => ?_⟩
  · rw [Config.move_locals, same]
    rw [Config.move_locals] at at_j
    by_cases here : j = i
    · rw [here, Function.update_self] at at_j
      rw [loads k tmp at_j]
      exact behind.buffer
    · rw [Function.update_of_ne here] at at_j
      exact behind.loaded j k tmp at_j
  · rw [Config.move_locals, Config.move_shared, same, buffer]
    exact behind.buffer
  · rw [Config.move_shared, buffer]
    rw [Config.move_locals] at at_r
    by_cases here : .inl r = i
    · rw [here, Function.update_self] at at_r
      exact returns at_r
    · rw [Function.update_of_ne here] at at_r
      exact behind.readers r at_r

theorem behind (h : (system readers writers).Reachable s) : Behind s := by
  refine h.preserved (I := Behind) ⟨?_, Nat.zero_le _, nofun⟩ ?_
  · rintro (r | w) k tmp ⟨⟩
  · intro s i t reach inv next
    have bound := stores_le (System.Run.tail reach next)
    obtain ⟨g, l, a, move, rfl⟩ := next_cases next
    have loaded := inv.loaded i
    have sum := sum_update Local.stores s.locals i l
    rw [Config.move_locals] at bound
    generalize before : s.locals i = l₀ at move loaded sum
    cases move with
    | @store k tmp =>
        have small := loaded k tmp rfl
        have more : ∑ j, (Function.update s.locals i (.writer .print k) j).stores =
            ∑ j, (s.locals j).stores + 1 := by
          apply Nat.add_right_cancel (m := k)
          rw [Nat.add_right_comm]
          exact sum
        have plus : (tmp + 1).toNat ≤ tmp.toNat + 1 := by
          rw [BitVec.toNat_add]
          exact Nat.mod_le _ _
        refine ⟨fun j k' tmp' at_j => ?_, ?_, fun r at_r => ?_⟩
        · rw [Config.move_locals] at at_j ⊢
          by_cases here : j = i
          · rw [here, Function.update_self] at at_j
            cases at_j
          · rw [Function.update_of_ne here] at at_j
            exact (inv.loaded j k' tmp' at_j).trans (more ▸ Nat.le_succ _)
        · rw [Config.move_locals, Config.move_shared, more]
          exact plus.trans (Nat.succ_le_succ small)
        · -- the stores would already have been all of them
          rw [Config.move_locals] at at_r
          by_cases here : .inl r = i
          · rw [here, Function.update_self] at at_r
            cases at_r
          · rw [Function.update_of_ne here] at at_r
            have all := (inv.readers r at_r).trans inv.buffer
            omega
    | readerReturn last => exact inv.keep rfl (by rw [before]; rfl) nofun fun _ => not_lt.mp last
    | load =>
        refine inv.keep rfl (by rw [before]; rfl) ?_ nofun
        rintro k tmp ⟨⟩
        rfl
    | _ => exact inv.keep rfl (by rw [before]; rfl) nofun nofun

/-! ## Who goes on for ever -/

theorem exists_short (many : 2 ≤ writers) :
    ∃ s : State readers writers, (system readers writers).Reachable s ∧ AllWritersReturned s ∧
      s.shared.buffer.toNat < iters * writers := by
  obtain ⟨s, reach, finished, lost⟩ := @exists_lost_write readers writers
    (⟨0, by omega⟩ : Fin writers) ⟨1, by omega⟩ (by simp)
  refine ⟨s, reach, finished, ?_⟩
  have bound := s.shared.buffer.isLt
  have total := congrArg BitVec.toNat lost
  rw [BitVec.toNat_add, BitVec.toNat_ofNat] at total
  by_contra all
  have : 0 < iters * writers := Nat.mul_pos (by decide) (by omega)
  have small : iters * writers < 2 ^ 16 := by omega
  rw [Nat.mod_eq_of_lt small] at total
  have one : (1 : BitVec 16).toNat = 1 := rfl
  rw [one] at total
  omega

theorem exists_fair_run (some_reader : 0 < readers) (many : 2 ≤ writers) :
    ∃ p : Endless readers writers, p.Fair := by
  obtain ⟨s, reach, finished, short⟩ := exists_short many
  obtain ⟨p, fair⟩ := System.Endless.exists_fair
    (I := fun s : State readers writers => (system readers writers).Reachable s ∧
      AllWritersReturned s ∧ s.shared.buffer.toNat < iters * writers)
    ⟨reach, finished, short⟩
    (fun ⟨reach, finished, short⟩ next => by
      have ⟨finished', same⟩ := finished_kept finished reach next
      exact ⟨System.Run.tail reach next, finished', same ▸ short⟩)
    fun t ⟨reach, finished, short⟩ => by
      refine exists_enabled reach (i := .inl ⟨0, some_reader⟩) ?_
      by_contra returned
      have role := isWriter_eq reach (.inl ⟨0, some_reader⟩)
      have least := (behind reach).readers ⟨0, some_reader⟩
      generalize t.locals (.inl ⟨0, some_reader⟩) = l at returned role least
      cases l with
      | writer pc k => cases role
      | reader pc =>
          cases pc <;> first | exact absurd rfl returned | skip
          have := least rfl
          omega
  obtain ⟨q, k, same⟩ := System.Endless.exists_from reach p
  exact ⟨q, fair.of_later same⟩

theorem many_of_fair (fair : p.Fair) : 0 < readers ∧ 2 ≤ writers := by
  obtain ⟨n, finished, short⟩ := (readers_go_on fair).exists
  have reach := p.reachable n
  constructor
  · obtain ⟨g, l, a, move, -⟩ := moved p n
    have reader := is_reader finished reach move
    rw [isWriter_eq reach] at reader
    cases mover : p.mover n with
    | inl r => exact Nat.zero_lt_of_lt r.isLt
    | inr w => rw [mover] at reader; cases reader
  · by_contra few
    have exact_count := noLostWrite_iff.mpr (Nat.le_of_lt_succ (not_le.mp few)) _ reach finished
    rw [exact_count, BitVec.toNat_ofNat, Nat.mod_eq_of_lt (by simp only [iters]; omega)] at short
    exact lt_irrefl _ short

/-- In a fair run without an end the writers have all returned in the end, and the readers go on
with a `buffer` below what they wait for. There is such a run with a reader and two writers, and
with fewer there is none. -/
theorem who_never_ends (readers writers : Nat) :
    (∀ p : Endless readers writers, p.Fair → ∀ᶠ n in atTop, AllWritersReturned (p.state n) ∧
      (p.state n).shared.buffer.toNat < iters * writers) ∧
    ((∃ p : Endless readers writers, p.Fair) ↔ 0 < readers ∧ 2 ≤ writers) :=
  ⟨fun _ fair => readers_go_on fair, fun ⟨_, fair⟩ => many_of_fair fair,
    fun ⟨some_reader, many⟩ => exists_fair_run some_reader many⟩

end OsUnix.EventRW
