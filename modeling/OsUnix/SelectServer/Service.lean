import OsUnix.SelectServer.Model

/-!
# One service round

`message` on any table whose descriptors are distinct. A turn changes its own slot only, so the
later turns find the table as it was at the start. For a slot behind the end of `pid_client` the pid
that is printed is whatever is stored there.
-/

namespace OsUnix.SelectServer
open Kernel

variable {it : Iteration} {rset : Finset Nat} {s t : Server} {buffer : List UInt8} {fd i j : Nat}
  {slots : List Nat}

inductive Call
  | read (fd : Nat)
  | close (fd : Nat)
  | write (fd : Nat) (data : List UInt8)
deriving DecidableEq, Repr

def visitCalls (it : Iteration) (rset : Finset Nat) (i : Nat) (s : Server) : List Call :=
  let fd := (s.client i).toNat
  if 0 < s.client i ∧ fd ∈ rset then
    match it.reads fd with
    | .eof => [.read fd, .close fd]
    | _ => [.read fd, .write fd good]
  else []

def visitsCalls (it : Iteration) (rset : Finset Nat) :
    List Nat → Server → List UInt8 → List Call
  | [], _, _ => []
  | i :: rest, s, buffer =>
      let here := visit it rset i s buffer
      visitCalls it rset i s ++ visitsCalls it rset rest here.1 here.2.1

def messageCalls (it : Iteration) (rset : Finset Nat) (s : Server) : List Call :=
  visitsCalls it rset (List.range (s.maxi + 1).toNat) s it.messageBuffer

structure Distinct (s : Server) : Prop where
  positive : ∀ i, 0 ≤ s.client i → 0 < s.client i
  apart : ∀ i j, 0 ≤ s.client i → s.client i = s.client j → i = j
  low : ∀ i : Nat, 0 ≤ s.client i → i ≤ s.maxi

def Ready (rset : Finset Nat) (s : Server) (fd : Nat) : Prop :=
  fd ∈ rset ∧ ∃ i, s.client i = fd

def Closing (it : Iteration) (rset : Finset Nat) (s : Server) (fd : Nat) : Prop :=
  Ready rset s fd ∧ it.reads fd = .eof

structure Serviced (it : Iteration) (rset : Finset Nat) (s t : Server) (calls : List Call) :
    Prop where
  read : ∀ fd, Ready rset s fd → calls.count (.read fd) = 1
  closed : ∀ fd, Closing it rset s fd → calls.count (.close fd) = 1
  answered : ∀ fd, Ready rset s fd → it.reads fd ≠ .eof → calls.count (.write fd good) = 1
  only : ∀ call ∈ calls, ∃ fd, Ready rset s fd ∧ (call = .read fd ∨
    it.reads fd = .eof ∧ call = .close fd ∨ it.reads fd ≠ .eof ∧ call = .write fd good)
  freed : ∀ fd i, Closing it rset s fd → s.client i = fd → t.client i = -1
  kept : ∀ i, (∀ fd, Closing it rset s fd → s.client i ≠ fd) → t.client i = s.client i
  allset : ∀ fd, fd ∈ t.allset ↔ fd ∈ s.allset ∧ ¬ Closing it rset s fd
  maxi : t.maxi = s.maxi
  maxfd : t.maxfd = s.maxfd
  pidClient : t.pidClient = s.pidClient
  distinct : Distinct t

/-! ## One turn -/

def Holds (rset : Finset Nat) (s : Server) (i fd : Nat) : Prop :=
  s.client i = fd ∧ 0 < fd ∧ fd ∈ rset

def Closes (it : Iteration) (rset : Finset Nat) (s : Server) (i fd : Nat) : Prop :=
  Holds rset s i fd ∧ it.reads fd = .eof

theorem Holds.guard (holds : Holds rset s i fd) :
    (0 < s.client i ∧ (s.client i).toNat ∈ rset) ∧ (s.client i).toNat = fd := by
  obtain ⟨slot, positive, ready⟩ := holds
  have value : (s.client i).toNat = fd := by omega
  exact ⟨⟨by omega, value ▸ ready⟩, value⟩

theorem holds_of_guard (guard : 0 < s.client i ∧ (s.client i).toNat ∈ rset) :
    Holds rset s i (s.client i).toNat :=
  ⟨by omega, by omega, guard.2⟩

theorem Holds.unique (holds : Holds rset s i fd) (holds' : Holds rset s i j) : fd = j :=
  Int.ofNat_inj.mp (holds.1.symm.trans holds'.1)

theorem closes_congr (same : t.client i = s.client i) :
    Closes it rset t i fd ↔ Closes it rset s i fd := by
  rw [Closes, Closes, Holds, Holds, same]

inductive Outcome (it : Iteration) (rset : Finset Nat) (i : Nat) (s : Server) :
    Server → List Call → Prop
  | idle (none : ∀ fd, ¬ Holds rset s i fd) : Outcome it rset i s s []
  | closed (fd : Nat) (holds : Holds rset s i fd) (eof : it.reads fd = .eof) :
      Outcome it rset i s
        { s with
          client := Function.update s.client i (-1)
          allset := s.allset.erase fd
          descriptors := s.descriptors.erase fd }
        [.read fd, .close fd]
  | answered (fd : Nat) (holds : Holds rset s i fd) (more : it.reads fd ≠ .eof) :
      Outcome it rset i s { s with errno := it.writes fd <|> (it.reads fd).errno <|> s.errno }
        [.read fd, .write fd good]

theorem visit_outcome (it : Iteration) (rset : Finset Nat) (i : Nat) (s : Server)
    (buffer : List UInt8) :
    Outcome it rset i s (visit it rset i s buffer).1 (visitCalls it rset i s) := by
  unfold visit visitCalls
  dsimp only
  by_cases guard : 0 < s.client i ∧ (s.client i).toNat ∈ rset
  · have holds := holds_of_guard guard
    rw [if_pos guard, if_pos guard]
    cases read : it.reads (s.client i).toNat with
    | eof => exact .closed _ holds read
    | bytes first rest =>
        have more : it.reads (s.client i).toNat ≠ .eof := by rw [read]; nofun
        have outcome := Outcome.answered _ holds more
        rwa [read] at outcome
    | error errno =>
        have more : it.reads (s.client i).toNat ≠ .eof := by rw [read]; nofun
        have outcome := Outcome.answered _ holds more
        rwa [read] at outcome
  · rw [if_neg guard, if_neg guard]
    exact .idle fun fd holds => guard holds.guard.1

section
variable {calls : List Call} {call : Call}

theorem Outcome.other (outcome : Outcome it rset i s t calls) (other : j ≠ i) :
    t.client j = s.client j := by
  cases outcome with
  | idle _ => rfl
  | closed fd _ _ => exact Function.update_of_ne other ..
  | answered fd _ _ => rfl

theorem Outcome.freed (outcome : Outcome it rset i s t calls) (closes : Closes it rset s i fd) :
    t.client i = -1 := by
  cases outcome with
  | idle none => exact absurd closes.1 (none fd)
  | closed _ _ _ => exact Function.update_self ..
  | answered fd' holds more => exact absurd closes.2 (closes.1.unique holds ▸ more)

theorem Outcome.kept (outcome : Outcome it rset i s t calls)
    (stays : ∀ fd, ¬ Closes it rset s i fd) :
    t.client i = s.client i := by
  cases outcome with
  | idle _ => rfl
  | closed fd holds eof => exact absurd ⟨holds, eof⟩ (stays fd)
  | answered _ _ _ => rfl

theorem Outcome.allset (outcome : Outcome it rset i s t calls) :
    fd ∈ t.allset ↔ fd ∈ s.allset ∧ ¬ Closes it rset s i fd := by
  cases outcome with
  | idle none => exact ⟨fun mem => ⟨mem, fun closes => none fd closes.1⟩, And.left⟩
  | closed fd' holds eof =>
      rw [Finset.mem_erase, and_comm]
      refine and_congr_right fun _ => not_congr ⟨?_, fun closes => closes.1.unique holds⟩
      rintro rfl
      exact ⟨holds, eof⟩
  | answered fd' holds more =>
      refine ⟨fun mem => ⟨mem, fun closes => ?_⟩, And.left⟩
      exact absurd closes.2 (closes.1.unique holds ▸ more)

theorem Outcome.fields (outcome : Outcome it rset i s t calls) :
    t.maxi = s.maxi ∧ t.maxfd = s.maxfd ∧ t.pidClient = s.pidClient := by
  cases outcome <;> exact ⟨rfl, rfl, rfl⟩

theorem Outcome.nodup (outcome : Outcome it rset i s t calls) : calls.Nodup := by
  cases outcome <;> simp

theorem Outcome.mem (outcome : Outcome it rset i s t calls) :
    call ∈ calls ↔ ∃ fd, Holds rset s i fd ∧
    (call = .read fd ∨ it.reads fd = .eof ∧ call = .close fd ∨
      it.reads fd ≠ .eof ∧ call = .write fd good) := by
  cases outcome with
  | idle none => exact ⟨nofun, fun ⟨fd, holds, _⟩ => absurd holds (none fd)⟩
  | closed fd holds eof =>
      constructor
      · intro mem
        rcases List.mem_pair.mp mem with rfl | rfl
        · exact ⟨fd, holds, .inl rfl⟩
        · exact ⟨fd, holds, .inr (.inl ⟨eof, rfl⟩)⟩
      · rintro ⟨fd', holds', which⟩
        cases holds.unique holds'
        rcases which with rfl | ⟨-, rfl⟩ | ⟨more, -⟩
        · exact List.mem_cons_self
        · exact List.mem_cons_of_mem _ List.mem_cons_self
        · exact absurd eof more
  | answered fd holds more =>
      constructor
      · intro mem
        rcases List.mem_pair.mp mem with rfl | rfl
        · exact ⟨fd, holds, .inl rfl⟩
        · exact ⟨fd, holds, .inr (.inr ⟨more, rfl⟩)⟩
      · rintro ⟨fd', holds', which⟩
        cases holds.unique holds'
        rcases which with rfl | ⟨eof, -⟩ | ⟨-, rfl⟩
        · exact List.mem_cons_self
        · exact absurd eof more
        · exact List.mem_cons_of_mem _ List.mem_cons_self

end

/-! ## The loop -/

structure Passed (it : Iteration) (rset : Finset Nat) (slots : List Nat) (s t : Server) :
    Prop where
  freed : ∀ i ∈ slots, ∀ fd, Closes it rset s i fd → t.client i = -1
  kept : ∀ i, (i ∈ slots → ∀ fd, ¬ Closes it rset s i fd) → t.client i = s.client i
  allset : ∀ fd, fd ∈ t.allset ↔ fd ∈ s.allset ∧ ¬ ∃ i ∈ slots, Closes it rset s i fd
  fields : t.maxi = s.maxi ∧ t.maxfd = s.maxfd ∧ t.pidClient = s.pidClient

theorem Passed.nil : Passed it rset [] s s where
  freed := List.forall_mem_nil _
  kept _ _ := rfl
  allset fd := by simp
  fields := ⟨rfl, rfl, rfl⟩

theorem Passed.cons {u : Server} {rest : List Nat} {calls : List Call} (fresh : i ∉ rest)
    (here : Outcome it rset i s u calls) (later : Passed it rset rest u t) :
    Passed it rset (i :: rest) s t := by
  have same {j fd : Nat} (mem : j ∈ rest) : Closes it rset u j fd ↔ Closes it rset s j fd :=
    closes_congr (here.other fun eq => fresh (eq ▸ mem))
  constructor
  · intro j mem fd closes
    rcases List.mem_cons.mp mem with rfl | mem
    · exact (later.kept j fun mem => absurd mem fresh).trans (here.freed closes)
    · exact later.freed j mem fd ((same mem).mpr closes)
  · intro j stays
    have rest_stays : j ∈ rest → ∀ fd, ¬ Closes it rset u j fd := fun mem fd closes =>
      stays (List.mem_cons_of_mem i mem) fd ((same mem).mp closes)
    refine (later.kept j rest_stays).trans ?_
    by_cases eq : j = i
    · subst eq
      exact here.kept (stays List.mem_cons_self)
    · exact here.other eq
  · intro fd
    have in_rest : (∃ j ∈ rest, Closes it rset u j fd) ↔ ∃ j ∈ rest, Closes it rset s j fd :=
      exists_congr fun j => and_congr_right fun mem => same mem
    rw [later.allset, here.allset, in_rest]
    simp only [List.mem_cons, exists_eq_or_imp, not_or, and_assoc]
  · obtain ⟨maxi, maxfd, pidClient⟩ := later.fields
    obtain ⟨maxi', maxfd', pidClient'⟩ := here.fields
    exact ⟨maxi.trans maxi', maxfd.trans maxfd', pidClient.trans pidClient'⟩

theorem passed (nodup : slots.Nodup) (s : Server) (buffer : List UInt8) :
    Passed it rset slots s (visits it rset slots s buffer).1 := by
  induction slots generalizing s buffer with
  | nil => exact .nil
  | cons i rest ih =>
      obtain ⟨fresh, nodup⟩ := List.nodup_cons.mp nodup
      exact .cons fresh (visit_outcome it rset i s buffer) (ih nodup _ _)

theorem visitsCalls_eq (nodup : slots.Nodup) :
    visitsCalls it rset slots s buffer = slots.flatMap fun i => visitCalls it rset i s := by
  induction slots generalizing s buffer with
  | nil => rfl
  | cons i rest ih =>
      obtain ⟨fresh, nodup⟩ := List.nodup_cons.mp nodup
      rw [visitsCalls, ih nodup, List.flatMap_cons]
      congr 1
      refine List.flatMap_congr fun j mem => ?_
      have other : j ≠ i := fun eq => fresh (eq ▸ mem)
      rw [visitCalls, visitCalls, (visit_outcome it rset i s buffer).other other]

/-! ## The round -/

theorem Distinct.slot_mem (distinct : Distinct s) (slot : s.client i = fd) :
    i ∈ List.range (s.maxi + 1).toNat := by
  have low := distinct.low i (by omega)
  exact List.mem_range.mpr (by omega)

theorem Distinct.holds (distinct : Distinct s) (ready : fd ∈ rset) (slot : s.client i = fd) :
    Holds rset s i fd := by
  have positive := distinct.positive i (by omega)
  exact ⟨slot, by omega, ready⟩

theorem Distinct.ready_iff (distinct : Distinct s) : Ready rset s fd ↔
    ∃ i ∈ List.range (s.maxi + 1).toNat, Holds rset s i fd := by
  constructor
  · rintro ⟨ready, i, slot⟩
    exact ⟨i, distinct.slot_mem slot, distinct.holds ready slot⟩
  · rintro ⟨i, -, slot, -, ready⟩
    exact ⟨ready, i, slot⟩

theorem Distinct.closing_iff (distinct : Distinct s) : Closing it rset s fd ↔
    ∃ i ∈ List.range (s.maxi + 1).toNat, Closes it rset s i fd := by
  rw [Closing, distinct.ready_iff]
  constructor
  · rintro ⟨⟨i, mem, holds⟩, eof⟩
    exact ⟨i, mem, holds, eof⟩
  · rintro ⟨i, mem, holds, eof⟩
    exact ⟨⟨i, mem, holds⟩, eof⟩

theorem mem_messageCalls (distinct : Distinct s) {call : Call} :
    call ∈ messageCalls it rset s ↔ ∃ fd, Ready rset s fd ∧ (call = .read fd ∨
      it.reads fd = .eof ∧ call = .close fd ∨ it.reads fd ≠ .eof ∧ call = .write fd good) := by
  rw [messageCalls, visitsCalls_eq List.nodup_range, List.mem_flatMap]
  constructor
  · rintro ⟨i, mem, here⟩
    obtain ⟨fd, holds, which⟩ := (visit_outcome it rset i s []).mem.mp here
    exact ⟨fd, distinct.ready_iff.mpr ⟨i, mem, holds⟩, which⟩
  · rintro ⟨fd, ready, which⟩
    obtain ⟨i, mem, holds⟩ := distinct.ready_iff.mp ready
    exact ⟨i, mem, (visit_outcome it rset i s []).mem.mpr ⟨fd, holds, which⟩⟩

def Call.descriptor : Call → Nat
  | read fd | close fd | write fd _ => fd

theorem holds_of_mem {call : Call} (mem : call ∈ visitCalls it rset i s) :
    Holds rset s i call.descriptor := by
  obtain ⟨fd, holds, rfl | ⟨-, rfl⟩ | ⟨-, rfl⟩⟩ := (visit_outcome it rset i s []).mem.mp mem
  all_goals exact holds

theorem nodup_messageCalls (distinct : Distinct s) : (messageCalls it rset s).Nodup := by
  rw [messageCalls, visitsCalls_eq List.nodup_range, List.nodup_flatMap]
  refine ⟨fun i _ => (visit_outcome it rset i s []).nodup, ?_⟩
  refine List.nodup_range.pairwise_of_forall_ne fun i _ j _ other call here there => other ?_
  have slot := (holds_of_mem here).1
  exact distinct.apart i j (by omega) (slot.trans (holds_of_mem there).1.symm)

theorem Distinct.of_message (distinct : Distinct s)
    (client : ∀ i, t.client i = s.client i ∨ t.client i = -1) (maxi : t.maxi = s.maxi) :
    Distinct t := by
  have occupied (i : Nat) (nonneg : 0 ≤ t.client i) : t.client i = s.client i :=
    (client i).resolve_right (by omega)
  constructor
  · intro i nonneg
    have here := occupied i nonneg
    rw [here] at nonneg ⊢
    exact distinct.positive i nonneg
  · intro i j nonneg same
    have here := occupied i nonneg
    have there := occupied j (same ▸ nonneg)
    exact distinct.apart i j (here ▸ nonneg) (here.symm.trans (same.trans there))
  · intro i nonneg
    rw [maxi]
    exact distinct.low i (occupied i nonneg ▸ nonneg)

theorem message_serviced (distinct : Distinct s) (it : Iteration) (rset : Finset Nat) :
    Serviced it rset s (message it rset s).1 (messageCalls it rset s) := by
  have once {call : Call} (mem : call ∈ messageCalls it rset s) :
      (messageCalls it rset s).count call = 1 :=
    List.count_eq_one_of_mem (nodup_messageCalls distinct) mem
  have passed := @passed it rset (List.range (s.maxi + 1).toNat) List.nodup_range s
    it.messageBuffer
  obtain ⟨maxi, maxfd, pidClient⟩ := passed.fields
  have kept (i : Nat) (stays : ∀ fd, Closing it rset s fd → s.client i ≠ fd) :
      (message it rset s).1.client i = s.client i :=
    passed.kept i fun mem fd closes =>
      stays fd (distinct.closing_iff.mpr ⟨i, mem, closes⟩) closes.1.1
  have freed (fd i : Nat) (closing : Closing it rset s fd) (slot : s.client i = fd) :
      (message it rset s).1.client i = -1 :=
    passed.freed i (distinct.slot_mem slot) fd ⟨distinct.holds closing.1.1 slot, closing.2⟩
  constructor
  · exact fun fd ready => once ((mem_messageCalls distinct).mpr ⟨fd, ready, .inl rfl⟩)
  · exact fun fd closing => once ((mem_messageCalls distinct).mpr
      ⟨fd, closing.1, .inr (.inl ⟨closing.2, rfl⟩)⟩)
  · exact fun fd ready more => once ((mem_messageCalls distinct).mpr
      ⟨fd, ready, .inr (.inr ⟨more, rfl⟩)⟩)
  · exact fun call mem => (mem_messageCalls distinct).mp mem
  · exact freed
  · exact kept
  · intro fd
    rw [distinct.closing_iff]
    exact passed.allset fd
  · exact maxi
  · exact maxfd
  · exact pidClient
  · refine distinct.of_message (fun i => ?_) maxi
    by_cases stays : ∀ fd, Closing it rset s fd → s.client i ≠ fd
    · exact .inl (kept i stays)
    · simp only [not_forall, not_not] at stays
      obtain ⟨fd, closing, slot⟩ := stays
      exact .inr (freed fd i closing slot)

def pair : Server where
  client i := if i = 0 then 4 else if i = 2 then 5 else -1
  allset := {3, 4, 5}
  maxi := 2
  maxfd := 5
  pidClient _ := 0
  errno := none
  running := true
  descriptors := [5, 4]
  peer _ := 0

def parting : Iteration where
  ready := {4, 5}
  accept := none
  pid := 0
  handshake := .eof
  reads fd := if fd = 4 then .eof else .bytes 104 [105, 10]
  writes _ := none
  connectionBuffer := []
  messageBuffer := []

theorem distinct_pair : Distinct pair := by
  constructor
  · intro i nonneg
    simp only [pair] at *
    omega
  · intro i j nonneg same
    simp only [pair] at *
    omega
  · intro i nonneg
    simp only [pair] at *
    omega

theorem message_serviced_pair :
    (messageCalls parting {4, 5} pair).count (.close 4) = 1 ∧
      (message parting {4, 5} pair).1.client 0 = -1 ∧
      (message parting {4, 5} pair).1.client 2 = 5 := by
  have serviced := message_serviced distinct_pair parting {4, 5}
  have closing : Closing parting {4, 5} pair 4 := ⟨⟨by decide, 0, rfl⟩, rfl⟩
  refine ⟨serviced.closed 4 closing, serviced.freed 4 0 closing rfl, serviced.kept 2 ?_⟩
  rintro fd ⟨-, eof⟩ slot
  have same : fd = 5 := (Int.ofNat_inj.mp slot).symm
  subst same
  cases eof

end OsUnix.SelectServer
