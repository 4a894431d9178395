import OsUnix.SelectServer.Model

/-!
# Only slot 0

The loop of `connection` looks at slot 0 and stops at the first free slot behind it without storing
anything there, so no client is ever in a slot other than 0, and `pid_client` is written at index 1.
-/

namespace OsUnix.SelectServer
open Kernel

variable {sockfd fd i : Nat} {it : Iteration} {rset : Finset Nat} {s t : Server} {log : Log}
  {buffer : List UInt8}

structure Shape (sockfd : Nat) (s : Server) : Prop where
  rest : ∀ i, i ≠ 0 → s.client i = -1
  slot : s.client 0 = -1 ∨ ∃ fd ∈ s.descriptors, s.client 0 = fd
  maxi : s.client 0 ≠ -1 → 0 ≤ s.maxi
  allset : ∀ fd ∈ s.allset, fd = sockfd ∨ fd ∈ s.descriptors
  above : ∀ fd ∈ s.descriptors, sockfd < fd
  nodup : s.descriptors.Nodup
  pidClient : s.pidClient 0 = 0

theorem Shape.start : Shape sockfd (.start sockfd) where
  rest _ _ := rfl
  slot := .inl rfl
  maxi taken := absurd rfl taken
  allset _ mem := .inl (Finset.mem_singleton.mp mem)
  above := List.forall_mem_nil _
  nodup := List.nodup_nil
  pidClient := rfl

theorem Shape.client_of_empty (shape : Shape sockfd s) (empty : s.descriptors = []) (i : Nat) :
    s.client i = -1 := by
  by_cases zero : i = 0
  · rw [zero]
    refine shape.slot.resolve_right ?_
    rintro ⟨fd, mem, -⟩
    rw [empty] at mem
    cases mem
  · exact shape.rest i zero

def Server.table (s : Server) (connfd : Nat) : Nat → Int :=
  if s.client 0 < 0 then Function.update s.client 0 connfd else s.client

def Server.accepted (s : Server) (it : Iteration) (connfd : Nat) : Server :=
  let buffer := received it.handshake it.connectionBuffer
  { s with
    client := s.table connfd
    allset := insert connfd s.allset
    maxfd := max s.maxfd connfd
    maxi := max s.maxi 1
    pidClient := Function.update s.pidClient 1 (atoi buffer)
    errno := if outOfRange buffer then some .erange else it.handshake.errno <|> s.errno
    descriptors := connfd :: s.descriptors
    peer := Function.update s.peer connfd it.pid }

theorem search_eq (rest : ∀ i, i ≠ 0 → s.client i = -1) (connfd : Nat) :
    search s.client connfd (fdSetSize - 1) 0 = some (s.table connfd, 1) := by
  have free : ¬ 0 ≤ s.table connfd 1 := by
    rw [Server.table]
    split
    · rw [Function.update_of_ne Nat.one_ne_zero, rest 1 Nat.one_ne_zero]
      decide
    · rw [rest 1 Nat.one_ne_zero]
      decide
  rw [show fdSetSize - 1 = 1022 + 1 from rfl, search]
  exact if_neg free

theorem connection_accepts (rest : ∀ i, i ≠ 0 → s.client i = -1) (ready : sockfd ∈ rset)
    (accepts : it.accept = none) : connection sockfd it rset s =
      if lowestUnused s.descriptors (sockfd + 1) < fdSetSize then
        some (s.accepted it (lowestUnused s.descriptors (sockfd + 1)),
          [(lowestUnused s.descriptors (sockfd + 1),
            .connected (atoi (received it.handshake it.connectionBuffer)))])
      else none := by
  have inside : (1 : Nat) < clients := by decide
  have index : (1 : Nat) ≠ fdSetSize := by decide
  simp only [connection, if_pos ready, accepts, connected, search_eq rest, Option.bind_some,
    if_neg index, inside, and_true]
  split <;> rfl

inductive Connects (sockfd : Nat) (it : Iteration) (rset : Finset Nat) (s : Server) :
    Server → Log → Prop
  | none (quiet : sockfd ∉ rset) : Connects sockfd it rset s s []
  | refused (ready : sockfd ∈ rset) (errno : Errno) (refuses : it.accept = some errno) :
      Connects sockfd it rset s { s with errno := some errno } []
  | accepted (ready : sockfd ∈ rset) (accepts : it.accept = Option.none) (connfd : Nat)
      (lowest : connfd = lowestUnused s.descriptors (sockfd + 1)) (inside : connfd < fdSetSize) :
      Connects sockfd it rset s (s.accepted it connfd)
        [(connfd, .connected (atoi (received it.handshake it.connectionBuffer)))]

theorem Connects.of_accepts (connects : Connects sockfd it rset s t log) (ready : sockfd ∈ rset)
    (accepts : it.accept = Option.none) :
    ∃ connfd, t = s.accepted it connfd ∧ connfd = lowestUnused s.descriptors (sockfd + 1) ∧
      connfd < fdSetSize := by
  cases connects with
  | none quiet => exact absurd ready quiet
  | refused _ errno refuses => cases accepts.symm.trans refuses
  | accepted _ _ connfd lowest inside => exact ⟨connfd, rfl, lowest, inside⟩

theorem connects_of_connection (shape : Shape sockfd s)
    (step : connection sockfd it rset s = some (t, log)) : Connects sockfd it rset s t log := by
  by_cases ready : sockfd ∈ rset
  · cases accepts : it.accept with
    | none =>
        rw [connection_accepts shape.rest ready accepts] at step
        split at step
        · cases step
          exact .accepted ready accepts _ rfl ‹_›
        · cases step
    | some errno =>
        simp only [connection, if_pos ready, accepts, Option.some.injEq, Prod.mk.injEq] at step
        obtain ⟨rfl, rfl⟩ := step
        exact .refused ready errno accepts
  · simp only [connection, if_neg ready, Option.some.injEq, Prod.mk.injEq] at step
    obtain ⟨rfl, rfl⟩ := step
    exact .none ready

theorem Shape.accepted (shape : Shape sockfd s) {connfd : Nat}
    (lowest : connfd = lowestUnused s.descriptors (sockfd + 1)) :
    Shape sockfd (s.accepted it connfd) where
  rest i other := by
    show s.table connfd i = -1
    rw [Server.table]
    split
    · rw [Function.update_of_ne other, shape.rest i other]
    · exact shape.rest i other
  slot := by
    refine .inr ?_
    show ∃ fd ∈ connfd :: s.descriptors, s.table connfd 0 = fd
    rw [Server.table]
    split
    · exact ⟨connfd, List.mem_cons_self, Function.update_self ..⟩
    · rename_i taken
      rcases shape.slot with free | ⟨fd, mem, eq⟩
      · rw [free] at taken
        exact absurd (by decide) taken
      · exact ⟨fd, List.mem_cons_of_mem _ mem, eq⟩
  maxi _ := Int.le_trans (by decide) (Int.le_max_right s.maxi 1)
  allset fd mem := by
    rcases Finset.mem_insert.mp mem with rfl | mem
    · exact .inr List.mem_cons_self
    · exact (shape.allset fd mem).imp_right (List.mem_cons_of_mem _)
  above := List.forall_mem_cons.mpr ⟨lowest ▸ le_lowestUnused, shape.above⟩
  nodup := List.nodup_cons.mpr ⟨lowest ▸ lowestUnused_not_mem, shape.nodup⟩
  pidClient := by
    simp only [Server.accepted, ne_eq, Nat.zero_ne_one, not_false_eq_true, Function.update_of_ne,
      shape.pidClient]

theorem Shape.connects (shape : Shape sockfd s) (connects : Connects sockfd it rset s t log) :
    Shape sockfd t := by
  cases connects with
  | none _ => exact shape
  | refused _ _ _ =>
      exact ⟨shape.rest, shape.slot, shape.maxi, shape.allset, shape.above, shape.nodup,
        shape.pidClient⟩
  | accepted _ _ _ lowest _ => exact shape.accepted lowest

theorem exists_connection (shape : Shape sockfd s)
    (inside : sockfd ∈ rset → it.accept = none →
      lowestUnused s.descriptors (sockfd + 1) < fdSetSize) :
    ∃ t log, connection sockfd it rset s = some (t, log) := by
  by_cases ready : sockfd ∈ rset
  · cases accepts : it.accept with
    | none =>
        exact ⟨_, _, (connection_accepts shape.rest ready accepts).trans
          (if_pos (inside ready accepts))⟩
    | some errno => exact ⟨{ s with errno := some errno }, [], by simp [connection, ready, accepts]⟩
  · exact ⟨s, [], if_neg ready⟩

theorem visit_free (free : s.client i = -1) : visit it rset i s buffer = (s, buffer, []) := by
  unfold visit
  rw [free]
  rfl

theorem visits_free (free : ∀ i, i ≠ 0 → s.client i = -1) {slots : List Nat} (others : 0 ∉ slots) :
    visits it rset slots s buffer = (s, []) := by
  induction slots with
  | nil => rfl
  | cons i rest ih =>
      rw [List.mem_cons, not_or] at others
      rw [visits, visit_free (free i (Ne.symm others.1)), ih others.2]
      rfl

theorem visit_rest (free : ∀ i, i ≠ 0 → s.client i = -1) :
    ∀ i, i ≠ 0 → (visit it rset 0 s buffer).1.client i = -1 := by
  intro i other
  unfold visit
  dsimp only
  split
  · split
    · exact (Function.update_of_ne other _ _).trans (free i other)
    · exact free i other
  · exact free i other

theorem message_eq (shape : Shape sockfd s) : message it rset s =
    ((visit it rset 0 s it.messageBuffer).1, (visit it rset 0 s it.messageBuffer).2.2) := by
  unfold message
  cases slots : (s.maxi + 1).toNat with
  | zero =>
      have free : s.client 0 = -1 := by
        by_contra taken
        have := shape.maxi taken
        omega
      rw [visit_free free]
      rfl
  | succ n =>
      rw [List.range_succ_eq_map, visits, visits_free (visit_rest shape.rest) (by simp),
        List.append_nil]

inductive Hears (it : Iteration) (rset : Finset Nat) (s : Server) : Server → Log → Prop
  | nothing (quiet : ∀ fd : Nat, s.client 0 = fd → fd ∉ rset) : Hears it rset s s []
  | closed (fd : Nat) (slot : s.client 0 = fd) (ready : fd ∈ rset) (eof : it.reads fd = .eof) :
      Hears it rset s
        { s with
          client := Function.update s.client 0 (-1)
          allset := s.allset.erase fd
          descriptors := s.descriptors.erase fd }
        [(fd, .disconnected 0)]
  | heard (fd : Nat) (slot : s.client 0 = fd) (ready : fd ∈ rset) (more : it.reads fd ≠ .eof) :
      Hears it rset s
        { s with errno := it.writes fd <|> (it.reads fd).errno <|> s.errno }
        [(fd, .message 0 (cstring (received (it.reads fd) it.messageBuffer)))]

theorem hears_of_message (shape : Shape sockfd s) (step : message it rset s = (t, log)) :
    Hears it rset s t log := by
  rw [message_eq shape] at step
  rcases shape.slot with free | ⟨fd, mem, slot⟩
  · rw [visit_free free] at step
    cases step
    refine .nothing fun fd eq => ?_
    rw [free] at eq
    omega
  · have positive : 0 < s.client 0 := by
      have := shape.above fd mem
      omega
    have index : (s.client 0).toNat = fd := by rw [slot, Int.toNat_natCast]
    by_cases ready : fd ∈ rset
    · unfold visit at step
      simp only [index, positive, ready, and_self, if_true, shape.pidClient] at step
      cases reads : it.reads fd with
      | eof =>
          simp only [reads, Prod.mk.injEq] at step
          obtain ⟨rfl, rfl⟩ := step
          exact .closed fd slot ready reads
      | bytes first rest =>
          simp only [reads, Prod.mk.injEq] at step
          obtain ⟨rfl, rfl⟩ := step
          rw [← reads]
          exact .heard fd slot ready (by rw [reads]; nofun)
      | error errno =>
          simp only [reads, Prod.mk.injEq] at step
          obtain ⟨rfl, rfl⟩ := step
          rw [← reads]
          exact .heard fd slot ready (by rw [reads]; nofun)
    · unfold visit at step
      simp only [index, ready, and_false, if_false, Prod.mk.injEq] at step
      obtain ⟨rfl, rfl⟩ := step
      refine .nothing fun g eq mem => ready ?_
      rw [slot] at eq
      rwa [Int.ofNat_inj.mp eq]

theorem Shape.hears (shape : Shape sockfd s) (hears : Hears it rset s t log) : Shape sockfd t := by
  cases hears with
  | nothing _ => exact shape
  | closed fd slot _ _ =>
      exact ⟨fun i other => (Function.update_of_ne other _ _).trans (shape.rest i other),
        .inl (Function.update_self 0 (-1) s.client),
        fun taken => absurd (Function.update_self 0 (-1) s.client) taken,
        fun g mem => (shape.allset g (Finset.mem_of_mem_erase mem)).imp_right
          (List.mem_erase_of_ne (Finset.ne_of_mem_erase mem)).mpr,
        fun g mem => shape.above g (List.mem_of_mem_erase mem), shape.nodup.erase fd,
        shape.pidClient⟩
  | heard _ _ _ _ =>
      exact ⟨shape.rest, shape.slot, shape.maxi, shape.allset, shape.above, shape.nodup,
        shape.pidClient⟩

inductive Iterates (sockfd : Nat) (it : Iteration) (s : Server) : Server → Log → Prop
  | ended (returned : s.running = false) : Iterates sockfd it s s []
  | stopped (running : s.running = true) (t : Server) (log : Log)
      (connects : Connects sockfd it (s.rset it) s t log) (failed : t.errno ≠ none) :
      Iterates sockfd it s { t with running := false } log
  | turned (running : s.running = true) (t u : Server) (log more : Log)
      (connects : Connects sockfd it (s.rset it) s t log) (clear : t.errno = none)
      (hears : Hears it (s.rset it) t u more) :
      Iterates sockfd it s { u with running := u.errno.isNone } (log ++ more)

theorem iterates_of_iterate (shape : Shape sockfd s) (step : iterate sockfd s it = some (t, log)) :
    Iterates sockfd it s t log := by
  unfold iterate at step
  split at step
  · rename_i running
    obtain ⟨⟨u, first⟩, connected, eq⟩ := Option.map_eq_some_iff.mp step
    have connects := connects_of_connection shape connected
    by_cases failed : u.errno.isSome
    · simp only [if_pos failed, Prod.mk.injEq] at eq
      obtain ⟨rfl, rfl⟩ := eq
      exact .stopped running u first connects (Option.isSome_iff_ne_none.mp failed)
    · simp only [if_neg failed, Prod.mk.injEq] at eq
      obtain ⟨rfl, rfl⟩ := eq
      have clear : u.errno = none := by simpa using failed
      exact .turned running u _ first _ connects clear
        (hears_of_message (shape.connects connects) rfl)
  · rename_i returned
    cases step
    exact .ended (by simpa using returned)

theorem exists_iterate (shape : Shape sockfd s)
    (inside : s.running = true → sockfd ∈ s.rset it → it.accept = none →
      lowestUnused s.descriptors (sockfd + 1) < fdSetSize) :
    ∃ t log, iterate sockfd s it = some (t, log) := by
  by_cases running : s.running = true
  · obtain ⟨u, first, connected⟩ := exists_connection shape (inside running)
    simp only [iterate, if_pos running, connected, Option.map_some]
    exact ⟨_, _, rfl⟩
  · exact ⟨s, [], if_neg running⟩

theorem Shape.running (shape : Shape sockfd s) (running : Bool) :
    Shape sockfd { s with running } :=
  ⟨shape.rest, shape.slot, shape.maxi, shape.allset, shape.above, shape.nodup, shape.pidClient⟩

theorem Shape.iterates (shape : Shape sockfd s) (iterates : Iterates sockfd it s t log) :
    Shape sockfd t := by
  cases iterates with
  | ended _ => exact shape
  | stopped _ _ _ connects _ => exact (shape.connects connects).running false
  | turned _ _ _ _ _ connects _ hears => exact ((shape.connects connects).hears hears).running _

theorem shape (h : (server sockfd).Reachable s) : Shape sockfd s :=
  h.invariant .start fun shape step => shape.iterates (iterates_of_iterate shape step)

end OsUnix.SelectServer
