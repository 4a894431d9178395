import OsUnix.SelectServer.Invariant

/-!
# Which connections are tracked

A client that connects while another one is connected gets a descriptor and a place in `allset`, but
no slot, and is never heard.
-/

namespace OsUnix.SelectServer
open Kernel

variable {sockfd fd : Nat} {it : Iteration} {rset : Finset Nat} {s t : Server} {log : Log}

structure Tracked (sockfd : Nat) (s : Server) : Prop where
  slot : ∀ fd ∈ s.descriptors, ∃ i < fdSetSize, (i : Int) ≤ s.maxi ∧ s.client i = fd ∧
    ∀ j < fdSetSize, s.client j = fd → j = i
  member : ∀ fd ∈ s.descriptors, fd ∈ s.allset
  bound : ∀ fd ∈ s.descriptors, fd ≤ s.maxfd ∧ fd < fdSetSize
  only : ∀ fd ∈ s.allset, fd = sockfd ∨ fd ∈ s.descriptors

structure Attends (sockfd : Nat) (s : Server) (it : Iteration) (t : Server) (_ : Log) : Prop where
  tracked : Tracked sockfd t
  reads : s.running = true → ∀ u first, connection sockfd it (s.rset it) s = some (u, first) →
    u.errno = none → ∀ fd ∈ u.descriptors, fd ∈ s.rset it →
    ∃ line, (fd, line) ∈ (message it (s.rset it) u).2

def Alone (sockfd : Nat) (s : Server) (it : Iteration) : Prop :=
  s.running = true → sockfd ∈ s.rset it → it.accept = none →
    s.descriptors = [] ∧ sockfd + 1 < fdSetSize

theorem Tracked.start : Tracked sockfd (.start sockfd) where
  slot := List.forall_mem_nil _
  member := List.forall_mem_nil _
  bound := List.forall_mem_nil _
  only _ mem := .inl (Finset.mem_singleton.mp mem)

theorem Tracked.slot_zero (tracked : Tracked sockfd s) (shape : Shape sockfd s)
    (mem : fd ∈ s.descriptors) : s.client 0 = fd := by
  obtain ⟨i, -, -, slot, -⟩ := tracked.slot fd mem
  by_cases zero : i = 0
  · rwa [zero] at slot
  · rw [shape.rest i zero] at slot
    omega

theorem tracked_of_slot (shape : Shape sockfd s) (slot : ∀ fd ∈ s.descriptors, s.client 0 = fd)
    (member : ∀ fd ∈ s.descriptors, fd ∈ s.allset)
    (bound : ∀ fd ∈ s.descriptors, fd ≤ s.maxfd ∧ fd < fdSetSize)
    (only : ∀ fd ∈ s.allset, fd = sockfd ∨ fd ∈ s.descriptors) : Tracked sockfd s where
  slot fd mem := by
    have here := slot fd mem
    refine ⟨0, by decide, shape.maxi (by rw [here]; omega), here, fun j _ same => ?_⟩
    by_contra other
    rw [shape.rest j other] at same
    omega
  member := member
  bound := bound
  only := only

theorem Tracked.running (tracked : Tracked sockfd s) (running : Bool) :
    Tracked sockfd { s with running } :=
  ⟨tracked.slot, tracked.member, tracked.bound, tracked.only⟩

theorem Tracked.connects (tracked : Tracked sockfd s) (shape : Shape sockfd s)
    (alone : sockfd ∈ rset → it.accept = none → s.descriptors = [] ∧ sockfd + 1 < fdSetSize)
    (connects : Connects sockfd it rset s t log) : Tracked sockfd t := by
  have shape' := shape.connects connects
  cases connects with
  | none _ => exact tracked
  | refused _ _ _ => exact ⟨tracked.slot, tracked.member, tracked.bound, tracked.only⟩
  | accepted ready accepts connfd lowest inside =>
      obtain ⟨empty, -⟩ := alone ready accepts
      have descriptors : (s.accepted it connfd).descriptors = [connfd] := by
        rw [Server.accepted, empty]
      have slot : (s.accepted it connfd).client 0 = connfd := by
        show s.table connfd 0 = connfd
        have free : s.client 0 < 0 := by
          rw [shape.client_of_empty empty]
          decide
        rw [Server.table, if_pos free, Function.update_self]
      apply tracked_of_slot shape'
      · rw [descriptors]
        exact List.forall_mem_singleton.mpr slot
      · rw [descriptors]
        exact List.forall_mem_singleton.mpr (Finset.mem_insert_self connfd s.allset)
      · rw [descriptors]
        exact List.forall_mem_singleton.mpr ⟨Nat.le_max_right s.maxfd connfd, inside⟩
      · intro fd mem
        rw [descriptors]
        rcases Finset.mem_insert.mp mem with rfl | mem
        · exact .inr (List.mem_singleton_self _)
        · refine .inl ((tracked.only fd mem).resolve_right fun mem => ?_)
          rw [empty] at mem
          cases mem

theorem Tracked.hears (tracked : Tracked sockfd s) (shape : Shape sockfd s)
    (hears : Hears it rset s t log) : Tracked sockfd t := by
  have shape' := shape.hears hears
  cases hears with
  | nothing _ => exact tracked
  | heard _ _ _ _ => exact ⟨tracked.slot, tracked.member, tracked.bound, tracked.only⟩
  | closed fd slot ready eof =>
      -- every descriptor is the one in slot 0
      have none : s.descriptors.erase fd = [] := by
        refine List.eq_nil_iff_forall_not_mem.mpr fun g mem => ?_
        obtain ⟨other, mem⟩ := (shape.nodup.mem_erase_iff).mp mem
        rw [tracked.slot_zero shape mem] at slot
        exact other (Int.ofNat_inj.mp slot)
      apply tracked_of_slot shape'
      · show ∀ g ∈ s.descriptors.erase fd, _
        rw [none]
        exact List.forall_mem_nil _
      · show ∀ g ∈ s.descriptors.erase fd, _
        rw [none]
        exact List.forall_mem_nil _
      · show ∀ g ∈ s.descriptors.erase fd, _
        rw [none]
        exact List.forall_mem_nil _
      · intro g mem
        obtain ⟨other, mem⟩ := Finset.mem_erase.mp mem
        exact (tracked.only g mem).imp_right (List.mem_erase_of_ne other).mpr

theorem exists_line (tracked : Tracked sockfd s) (shape : Shape sockfd s) (mem : fd ∈ s.descriptors)
    (ready : fd ∈ rset) : ∃ line, (fd, line) ∈ (message it rset s).2 := by
  have here := tracked.slot_zero shape mem
  have hears : Hears it rset s (message it rset s).1 (message it rset s).2 :=
    hears_of_message shape rfl
  generalize (message it rset s).1 = t at hears
  generalize (message it rset s).2 = log at hears
  cases hears with
  | nothing quiet => exact absurd ready (quiet fd here)
  | closed g slot _ _ =>
      obtain rfl : fd = g := Int.ofNat_inj.mp (here.symm.trans slot)
      exact ⟨_, List.mem_singleton_self _⟩
  | heard g slot _ _ =>
      obtain rfl : fd = g := Int.ofNat_inj.mp (here.symm.trans slot)
      exact ⟨_, List.mem_singleton_self _⟩

theorem attends_of_alone (tracked : Tracked sockfd s) (shape : Shape sockfd s)
    (alone : Alone sockfd s it) (step : iterate sockfd s it = some (t, log)) :
    Attends sockfd s it t log := by
  constructor
  · cases iterates_of_iterate shape step with
    | ended _ => exact tracked
    | stopped running u _ connects _ =>
        exact (tracked.connects shape (alone running) connects).running false
    | turned running u v _ _ connects _ hears =>
        exact ((tracked.connects shape (alone running) connects).hears (shape.connects connects)
          hears).running _
  · intro running u first connected _ fd mem ready
    have connects := connects_of_connection shape connected
    exact exists_line (tracked.connects shape (alone running) connects) (shape.connects connects)
      mem ready

theorem Tracked.taken (tracked : Tracked sockfd s) (shape : Shape sockfd s) (it : Iteration)
    {connfd : Nat} (lowest : connfd = lowestUnused s.descriptors (sockfd + 1))
    (some_open : s.descriptors ≠ []) : (s.accepted it connfd).client 0 ≠ connfd := by
  obtain ⟨fd, mem⟩ := List.exists_mem_of_ne_nil _ some_open
  have slot := tracked.slot_zero shape mem
  show s.table connfd 0 ≠ connfd
  rw [Server.table, if_neg (by rw [slot]; omega), slot]
  rintro same
  obtain rfl := Int.ofNat_inj.mp same
  exact lowestUnused_not_mem (lowest ▸ mem)

theorem alone_of_attends (tracked : Tracked sockfd s) (shape : Shape sockfd s)
    (step : iterate sockfd s it = some (t, log)) (attends : Attends sockfd s it t log) :
    Alone sockfd s it := by
  intro running ready accepts
  have shape' := shape.iterates (iterates_of_iterate shape step)
  have here := attends.tracked
  suffices stored : ∃ connfd, connfd = lowestUnused s.descriptors (sockfd + 1) ∧
      connfd < fdSetSize ∧ (s.descriptors ≠ [] → t.client 0 ≠ connfd ∧ connfd ∈ t.descriptors) by
    obtain ⟨connfd, lowest, inside, other⟩ := stored
    have empty : s.descriptors = [] := by
      by_contra some_open
      obtain ⟨elsewhere, mem⟩ := other some_open
      exact elsewhere (here.slot_zero shape' mem)
    rw [empty, lowestUnused_nil] at lowest
    exact ⟨empty, lowest ▸ inside⟩
  cases iterates_of_iterate shape step with
  | ended returned => cases running.symm.trans returned
  | stopped _ u _ connects _ =>
      obtain ⟨connfd, rfl, lowest, inside⟩ := connects.of_accepts ready accepts
      exact ⟨connfd, lowest, inside, fun some_open =>
        ⟨tracked.taken shape it lowest some_open, List.mem_cons_self⟩⟩
  | turned _ u v _ _ connects _ hears =>
      obtain ⟨connfd, rfl, lowest, inside⟩ := connects.of_accepts ready accepts
      refine ⟨connfd, lowest, inside, fun some_open => ?_⟩
      have other : (s.accepted it connfd).client 0 ≠ connfd :=
        tracked.taken shape it lowest some_open
      cases hears with
      | nothing _ => exact ⟨other, List.mem_cons_self⟩
      | heard _ _ _ _ => exact ⟨other, List.mem_cons_self⟩
      | closed fd slot _ _ =>
          have apart : connfd ≠ fd := by
            rintro rfl
            exact other slot
          refine ⟨?_, (List.mem_erase_of_ne apart).mpr List.mem_cons_self⟩
          show Function.update (s.accepted it connfd).client 0 (-1) 0 ≠ (connfd : Int)
          rw [Function.update_self]
          omega

/-- Every connection is tracked along a run exactly when none is accepted while another one is
open. -/
theorem tracked_iff (sockfd : Nat) (its : List Iteration) :
    (server sockfd).Serves (Attends sockfd) (.start sockfd) its ↔
      (server sockfd).Before (Alone sockfd) (.start sockfd) its := by
  apply Component.serves_iff_before (I := fun s => Shape sockfd s ∧ Tracked sockfd s)
    (V := fun _ _ => True) ⟨.start, .start⟩ (Component.before_of_forall fun _ _ _ => trivial)
  · intro s it ⟨shape, tracked⟩ _
    constructor
    · rintro ⟨t, log, step, attends⟩
      exact alone_of_attends tracked shape step attends
    · intro alone
      obtain ⟨t, log, step⟩ := exists_iterate shape fun running ready accepts => by
        obtain ⟨empty, inside⟩ := alone running ready accepts
        rwa [empty, lowestUnused_nil]
      exact ⟨t, log, step, attends_of_alone tracked shape alone step⟩
  · intro s it t log ⟨shape, _⟩ _ step attends
    exact ⟨shape.iterates (iterates_of_iterate shape step), attends.tracked⟩

def visitor (digit : UInt8) : Iteration where
  ready := {3}
  accept := none
  pid := digit.toNat - 48
  handshake := .bytes digit []
  reads _ := .eof
  writes _ := none
  connectionBuffer := List.replicate sizeBuffer 0
  messageBuffer := List.replicate sizeBuffer 0

theorem tracked_fails :
    ¬ (server 3).Serves (Attends 3) (.start 3) [visitor 53, visitor 54] := by
  intro serves
  obtain ⟨first, serves⟩ := (Component.serves_cons rfl).mp serves
  obtain ⟨second, -⟩ := (Component.serves_cons rfl).mp serves
  obtain ⟨i, -, -, slot, -⟩ := second.tracked.slot 5 (by decide)
  cases i with
  | zero =>
      have first_client : (4 : Int) = 5 := slot
      exact absurd first_client (by decide)
  | succ i =>
      have free : (-1 : Int) = 5 := slot
      exact absurd free (by decide)

end OsUnix.SelectServer
