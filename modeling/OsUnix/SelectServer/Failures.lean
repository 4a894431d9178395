import OsUnix.SelectServer.Tracking

/-!
# What a failing client does

No call checks its own result except `accept`. `main` returns as soon as `errno` is not zero, so the
first read or write that fails ends the server.
-/

namespace OsUnix.SelectServer
open Kernel

variable {sockfd fd : Nat} {it : Iteration} {rset : Finset Nat} {s t : Server} {log : Log}

structure Survives (s : Server) (it : Iteration) (t : Server) (_ : Log) : Prop where
  running : t.running = true
  slots : ∀ fd ∈ s.descriptors, it.reads fd ≠ .eof → ∀ i, t.client i = fd ↔ s.client i = fd
  allset : ∀ fd ∈ s.descriptors, it.reads fd ≠ .eof → (fd ∈ t.allset ↔ fd ∈ s.allset)

structure Harmless (sockfd : Nat) (s : Server) (it : Iteration) : Prop where
  connection : sockfd ∈ s.rset it → it.handshake.errno = none ∧
    outOfRange (received it.handshake it.connectionBuffer) = false ∧
    lowestUnused s.descriptors (sockfd + 1) < fdSetSize
  message : ∀ i fd : Nat, s.client i = fd → fd ∈ s.rset it →
    (it.reads fd).errno = none ∧ (it.reads fd ≠ .eof → it.writes fd = none)

theorem or_eq_none {a b : Option Errno} : (a <|> b) = none ↔ a = none ∧ b = none := by
  cases a <;> simp

theorem Server.rset_subset (mem : fd ∈ s.rset it) : fd ∈ s.allset := Finset.mem_of_mem_filter fd mem

theorem client_of_connects (connects : Connects sockfd it rset s t log)
    (mem : fd ∈ s.descriptors) (i : Nat) : t.client i = fd ↔ s.client i = fd := by
  cases connects with
  | none _ => rfl
  | refused _ _ _ => rfl
  | accepted _ _ connfd lowest _ =>
      show s.table connfd i = fd ↔ _
      rw [Server.table]
      split
      · by_cases zero : i = 0
        · rename_i free
          rw [zero, Function.update_self]
          refine iff_of_false (fun same => ?_) (fun same => by omega)
          obtain rfl := Int.ofNat_inj.mp same
          exact lowestUnused_not_mem (lowest ▸ mem)
        · rw [Function.update_of_ne zero]
      · rfl

theorem allset_of_connects (connects : Connects sockfd it rset s t log) (mem : fd ∈ s.descriptors) :
    fd ∈ t.allset ↔ fd ∈ s.allset := by
  cases connects with
  | none _ => rfl
  | refused _ _ _ => rfl
  | accepted _ _ connfd lowest _ =>
      refine Finset.mem_insert.trans (or_iff_right ?_)
      rintro rfl
      exact lowestUnused_not_mem (lowest ▸ mem)

theorem client_of_ready (shape : Shape sockfd s)
    (connects : Connects sockfd it (s.rset it) s t log) (ready : fd ∈ s.rset it)
    (slot : t.client 0 = fd) : s.client 0 = fd := by
  rcases (shape.connects connects).slot with free | ⟨g, mem, eq⟩
  · omega
  · obtain rfl : fd = g := Int.ofNat_inj.mp (slot.symm.trans eq)
    have above := (shape.connects connects).above fd mem
    rcases shape.allset fd (Server.rset_subset ready) with rfl | old
    · exact absurd above (Nat.lt_irrefl _)
    · exact (client_of_connects connects old 0).mp slot

theorem zero_of_client (shape : Shape sockfd s) {i : Nat} (slot : s.client i = fd) : i = 0 := by
  by_contra other
  rw [shape.rest i other] at slot
  omega

theorem survives_of_harmless (shape : Shape sockfd s) (running : s.running = true)
    (clear : s.errno = none) (accepts : it.accept = none) (harmless : Harmless sockfd s it)
    (step : iterate sockfd s it = some (t, log)) : Survives s it t log := by
  have connected {u : Server} {first : Log} (connects : Connects sockfd it (s.rset it) s u first) :
      u.errno = none := by
    cases connects with
    | none _ => exact clear
    | refused _ _ refuses => cases accepts.symm.trans refuses
    | accepted ready _ _ _ _ =>
        obtain ⟨read, inRange, -⟩ := harmless.connection ready
        simp only [Server.accepted, inRange, read, clear]
        rfl
  cases iterates_of_iterate shape step with
  | ended returned => cases running.symm.trans returned
  | stopped _ u _ connects failed => exact absurd (connected connects) failed
  | turned _ u v first more connects _ hears =>
      have slots := fun (fd : Nat) (mem : fd ∈ s.descriptors) => client_of_connects connects mem
      have members := fun (fd : Nat) (mem : fd ∈ s.descriptors) => allset_of_connects connects mem
      cases hears with
      | nothing _ =>
          exact ⟨by simp [connected connects], fun fd mem _ => slots fd mem,
            fun fd mem _ => members fd mem⟩
      | heard g slot ready more =>
          obtain ⟨read, written⟩ :=
            harmless.message 0 g (client_of_ready shape connects ready slot) ready
          exact ⟨by simp [connected connects, read, written more], fun fd mem _ => slots fd mem,
            fun fd mem _ => members fd mem⟩
      | closed g slot ready eof =>
          have other {fd : Nat} (open_ : it.reads fd ≠ .eof) : fd ≠ g := by
            rintro rfl
            exact open_ eof
          refine ⟨by simp [connected connects], fun fd mem open_ i => ?_, fun fd mem open_ => ?_⟩
          · rw [← slots fd mem i]
            by_cases zero : i = 0
            · rw [zero, slot]
              refine iff_of_false (fun same => ?_) fun same =>
                other open_ (Int.ofNat_inj.mp same).symm
              have free : (-1 : Int) = fd := (Function.update_self 0 (-1) u.client).symm.trans same
              omega
            · exact Iff.of_eq (congrArg (· = (fd : Int)) (Function.update_of_ne zero _ u.client))
          · rw [← members fd mem]
            exact Finset.mem_erase.trans (and_iff_right (other open_))

theorem harmless_of_running (shape : Shape sockfd s) (running : s.running = true)
    (accepts : it.accept = none)
    (step : iterate sockfd s it = some (t, log)) (survives : t.running = true) :
    Harmless sockfd s it := by
  cases iterates_of_iterate shape step with
  | ended returned => cases running.symm.trans returned
  | stopped _ _ _ _ _ => cases survives
  | turned _ u v first more connects still hears =>
      have quiet : v.errno = none := Option.isNone_iff_eq_none.mp survives
      constructor
      · intro ready
        cases connects with
        | none unready => exact absurd ready unready
        | refused _ _ refuses => cases accepts.symm.trans refuses
        | accepted _ _ connfd lowest inside =>
            simp only [Server.accepted] at still
            split at still
            · cases still
            · rename_i inRange
              exact ⟨(or_eq_none.mp still).1, by simpa using inRange, lowest ▸ inside⟩
      · intro i fd slot ready
        obtain rfl := zero_of_client shape slot
        have mem : fd ∈ s.descriptors := by
          rcases shape.slot with free | ⟨g, mem, eq⟩
          · omega
          · rwa [Int.ofNat_inj.mp (slot.symm.trans eq)]
        have here := (client_of_connects connects mem 0).mpr slot
        cases hears with
        | nothing unready => exact absurd ready (unready fd here)
        | closed g slot' _ eof =>
            obtain rfl : fd = g := Int.ofNat_inj.mp (here.symm.trans slot')
            exact ⟨by rw [eof]; rfl, fun open_ => absurd eof open_⟩
        | heard g slot' _ _ =>
            obtain rfl : fd = g := Int.ofNat_inj.mp (here.symm.trans slot')
            obtain ⟨written, read⟩ := or_eq_none.mp quiet
            exact ⟨(or_eq_none.mp read).1, fun _ => written⟩

/-- The server survives a run exactly when every read and write in it succeeds. -/
theorem survives_iff (sockfd : Nat) (its : List Iteration)
    (accepts : ∀ it ∈ its, it.accept = none) :
    (server sockfd).Serves Survives (.start sockfd) its ↔
      (server sockfd).Before (Harmless sockfd) (.start sockfd) its := by
  apply Component.serves_iff_before
    (I := fun s => Shape sockfd s ∧ s.running = true ∧ s.errno = none)
    (V := fun _ it => it.accept = none) ⟨.start, rfl, rfl⟩
    (Component.before_of_forall fun it mem _ => accepts it mem)
  · intro s it ⟨shape, running, clear⟩ accepts
    constructor
    · rintro ⟨t, log, step, survives⟩
      exact harmless_of_running shape running accepts step survives.running
    · intro harmless
      obtain ⟨t, log, step⟩ := exists_iterate shape fun _ ready _ => (harmless.connection ready).2.2
      exact ⟨t, log, step, survives_of_harmless shape running clear accepts harmless step⟩
  · intro s it t log ⟨shape, running, _⟩ _ step survives
    have iterates := iterates_of_iterate shape step
    refine ⟨shape.iterates iterates, survives.running, ?_⟩
    have alive := survives.running
    cases iterates with
    | ended returned => cases running.symm.trans returned
    | stopped _ _ _ _ _ => cases alive
    | turned _ _ v _ _ _ _ _ => exact Option.isNone_iff_eq_none.mp alive

theorem survives_visitor : (server 3).Serves Survives (.start 3) [visitor 53] := by
  refine (survives_iff 3 _ (List.forall_mem_singleton.mpr rfl)).mpr
    ((Component.before_cons rfl).mpr ⟨⟨fun _ => by decide, fun i fd slot => ?_⟩, trivial⟩)
  have free : (-1 : Int) = fd := slot
  omega

def reset : Iteration :=
  { visitor 0 with ready := {4}, reads := fun _ => .error .econnreset }

theorem survives_fails : (∀ it ∈ [visitor 53, reset], it.accept = none) ∧
    ¬ (server 3).Serves Survives (.start 3) [visitor 53, reset] := by
  refine ⟨by decide, fun serves => ?_⟩
  obtain ⟨-, serves⟩ := (Component.serves_cons rfl).mp serves
  obtain ⟨survives, -⟩ := (Component.serves_cons rfl).mp serves
  exact absurd survives.running (by decide)

end OsUnix.SelectServer
