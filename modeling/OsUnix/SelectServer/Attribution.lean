import OsUnix.SelectServer.Tracking

/-!
# Whose message it is

A client in slot 0 is logged with `pid_client[0]`, which is never written.
-/

namespace OsUnix.SelectServer
open Kernel

variable {sockfd fd : Nat} {it : Iteration} {rset : Finset Nat} {s t : Server} {log : Log}
  {line : Line}

def Attributed (s : Server) : Prop :=
  ∀ (i fd : Nat), s.client i = fd → s.pidClient i = s.peer fd

def Line.attributedTo : Line → Option Int
  | .connected _ => none
  | .disconnected pid | .message pid _ => some pid

structure Attributes (_ : Server) (_ : Iteration) (t : Server) (log : Log) : Prop where
  slots : Attributed t
  lines : ∀ fd line pid, (fd, line) ∈ log → line.attributedTo = some pid → pid = t.peer fd

def Accepts (sockfd : Nat) (s : Server) (it : Iteration) : Prop :=
  s.running = true ∧ sockfd ∈ s.rset it ∧ it.accept = none

def Introduced (sockfd : Nat) (s : Server) (it : Iteration) : Prop :=
  Accepts sockfd s it →
    atoi (received it.handshake it.connectionBuffer) = it.pid ∧ 0 < it.pid

theorem not_accepts (shape : Shape sockfd s) (empty : s.descriptors = [])
    (introduced : Introduced sockfd s it) (step : iterate sockfd s it = some (t, log))
    (attributes : Attributes s it t log) : ¬ Accepts sockfd s it := by
  intro accepts
  obtain ⟨-, positive⟩ := introduced accepts
  obtain ⟨running, ready, accepts⟩ := accepts
  have accepted {u : Server} {first : Log} (connects : Connects sockfd it (s.rset it) s u first) :
      ∃ connfd : Nat, u.client 0 = connfd ∧ u.peer connfd = it.pid ∧ u.pidClient 0 = 0 := by
    have pid := (shape.connects connects).pidClient
    obtain ⟨connfd, rfl, -, -⟩ := connects.of_accepts ready accepts
    refine ⟨connfd, ?_, ?_, pid⟩
    · show s.table connfd 0 = connfd
      rw [Server.table, if_pos (by rw [shape.client_of_empty empty]; decide), Function.update_self]
    · exact Function.update_self connfd it.pid s.peer
  cases iterates_of_iterate shape step with
  | ended returned => cases running.symm.trans returned
  | stopped _ u _ connects _ =>
      obtain ⟨connfd, slot, peer, pid⟩ := accepted connects
      have same : u.pidClient 0 = u.peer connfd := attributes.slots 0 connfd slot
      omega
  | turned _ u v first more connects _ hears =>
      obtain ⟨connfd, slot, peer, pid⟩ := accepted connects
      cases hears with
      | nothing _ =>
          have same : u.pidClient 0 = u.peer connfd := attributes.slots 0 connfd slot
          omega
      | heard _ _ _ _ =>
          have same : u.pidClient 0 = u.peer connfd := attributes.slots 0 connfd slot
          omega
      | closed fd here _ _ =>
          obtain rfl : connfd = fd := Int.ofNat_inj.mp (slot.symm.trans here)
          have same : 0 = u.peer connfd := attributes.lines connfd (.disconnected 0) 0
            (List.mem_append_right _ (List.mem_singleton_self _)) rfl
          omega

theorem empty_of_not_accepts (shape : Shape sockfd s) (empty : s.descriptors = [])
    (refuses : ¬ Accepts sockfd s it) (iterates : Iterates sockfd it s t log) :
    t.descriptors = [] ∧ log = [] := by
  have quiet {u : Server} {first : Log} (running : s.running = true)
      (connects : Connects sockfd it (s.rset it) s u first) : u.descriptors = [] ∧ first = [] := by
    cases connects with
    | none _ => exact ⟨empty, rfl⟩
    | refused _ _ _ => exact ⟨empty, rfl⟩
    | accepted ready accepts _ _ _ => exact absurd ⟨running, ready, accepts⟩ refuses
  cases iterates with
  | ended _ => exact ⟨empty, rfl⟩
  | stopped running u _ connects _ =>
      obtain ⟨none_open, rfl⟩ := quiet running connects
      exact ⟨none_open, rfl⟩
  | turned running u v first more connects _ hears =>
      obtain ⟨none_open, rfl⟩ := quiet running connects
      have free := (shape.connects connects).client_of_empty none_open 0
      cases hears with
      | nothing _ => exact ⟨none_open, rfl⟩
      | closed fd slot _ _ => omega
      | heard fd slot _ _ => omega

/-- Everything is attributed to its sender along a run exactly when no connection is accepted. -/
theorem attributed_iff (sockfd : Nat) (its : List Iteration)
    (introduced : (server sockfd).Before (Introduced sockfd) (.start sockfd) its) :
    (server sockfd).Serves Attributes (.start sockfd) its ↔
      (server sockfd).Before (fun s it => ¬ Accepts sockfd s it) (.start sockfd) its := by
  apply Component.serves_iff_before (I := fun s => Shape sockfd s ∧ s.descriptors = [])
    ⟨.start, rfl⟩ introduced
  · intro s it ⟨shape, empty⟩ introduced
    constructor
    · rintro ⟨t, log, step, attributes⟩
      exact not_accepts shape empty introduced step attributes
    · intro refuses
      obtain ⟨t, log, step⟩ := exists_iterate shape fun running ready accepts =>
        absurd ⟨running, ready, accepts⟩ refuses
      have iterates := iterates_of_iterate shape step
      obtain ⟨none_open, rfl⟩ := empty_of_not_accepts shape empty refuses iterates
      refine ⟨t, [], step, fun i fd slot => ?_, fun _ _ _ mem => nomatch mem⟩
      rw [(shape.iterates iterates).client_of_empty none_open] at slot
      omega
  · intro s it t log ⟨shape, empty⟩ introduced step attributes
    have iterates := iterates_of_iterate shape step
    exact ⟨shape.iterates iterates, (empty_of_not_accepts shape empty
      (not_accepts shape empty introduced step attributes) iterates).1⟩

theorem introduced_visitor : (server 3).Before (Introduced 3) (.start 3) [visitor 53] :=
  (Component.before_cons rfl).mpr ⟨fun _ => by decide, trivial⟩

theorem attributed_visitor : (server 3).Serves Attributes (.start 3) [visitor 53] ↔
    (server 3).Before (fun s it => ¬ Accepts 3 s it) (.start 3) [visitor 53] :=
  attributed_iff 3 _ introduced_visitor

theorem attributed_fails :
    (server 3).Before (Introduced 3) (.start 3) [visitor 53] ∧
      ¬ (server 3).Serves Attributes (.start 3) [visitor 53] := by
  refine ⟨introduced_visitor, fun serves => ?_⟩
  obtain ⟨attributes, -⟩ := (Component.serves_cons rfl).mp serves
  have same : (0 : Int) = 5 := attributes.slots 0 4 rfl
  exact absurd same (by decide)

end OsUnix.SelectServer
