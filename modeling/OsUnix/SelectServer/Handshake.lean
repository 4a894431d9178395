import OsUnix.SelectServer.Tracking

/-!
# The pid of a new client

The client writes the digits of its pid and then its first message, with nothing in between, and
`connection` reads once, into a buffer in which old bytes follow.
-/

namespace OsUnix.SelectServer
open Kernel

variable {sockfd pid k : Nat} {it : Iteration} {s t : Server} {log : Log}
  {text buffer : List UInt8}

def greeting (pid : Nat) (text : List UInt8) : List UInt8 := decimal pid ++ text

structure Exact (pid : Nat) (text : List UInt8) (k : Nat) (t : Server) : Prop where
  stored : t.pidClient 1 = pid
  left : text <:+ (greeting pid text).drop k

def behind (k : Nat) (buffer : List UInt8) : List UInt8 := (buffer.drop k).takeWhile isDigit

def Wraps (pid : Nat) (run : List UInt8) : Prop :=
  2 ^ 32 ≤ number run ∧ number run < 2 ^ 63 ∧ number run % 2 ^ 32 = pid

def Completes (pid k : Nat) (buffer : List UInt8) : Prop :=
  k ≤ (decimal pid).length ∧
    (behind k buffer = (decimal pid).drop k ∨ Wraps pid ((decimal pid).take k ++ behind k buffer))

theorem left_iff (bound : k ≤ (greeting pid text).length) :
    text <:+ (greeting pid text).drop k ↔ k ≤ (decimal pid).length := by
  constructor
  · intro left
    have length := left.length_le
    rw [greeting, List.length_append] at bound
    rw [greeting, List.length_drop, List.length_append] at length
    by_contra more
    have : text.length = 0 := by omega
    omega
  · intro le
    rw [greeting, List.drop_append_of_le_length le]
    exact List.suffix_append _ _

theorem atoi_buffer (positive : 0 < pid) (small : pid < 2 ^ 31) (some_bytes : 0 < k) :
    atoi ((decimal pid).take k ++ buffer.drop k) = pid ↔
      behind k buffer = (decimal pid).drop k ∨
        Wraps pid ((decimal pid).take k ++ behind k buffer) := by
  have digits : ∀ b ∈ (decimal pid).take k, isDigit b = true := fun b mem =>
    isDigit_decimal (List.mem_of_mem_take mem)
  have nonempty : (decimal pid).take k ≠ [] := by
    rw [ne_eq, List.take_eq_nil_iff]
    exact not_or.mpr ⟨Nat.ne_of_gt some_bytes, decimal_ne_nil⟩
  rw [atoi_eq positive small (signed_digits digits nonempty)]
  apply or_congr _ Iff.rfl
  show number ((decimal pid).take k ++ behind k buffer) = pid ↔ _
  have all_digits : ∀ b ∈ (decimal pid).take k ++ behind k buffer, isDigit b = true :=
    List.forall_mem_append.mpr ⟨digits, List.all_eq_true.mp List.all_takeWhile⟩
  have head : ((decimal pid).take k ++ behind k buffer).head? ≠ some 48 := by
    rw [List.head?_append_of_ne_nil _ nonempty, List.head?_take, if_neg (Nat.ne_of_gt some_bytes)]
    exact zero_not_head_decimal positive
  constructor
  · intro same
    have numeral := decimal_number all_digits (List.append_ne_nil_of_left_ne_nil nonempty _) head
    rw [same] at numeral
    exact (List.append_cancel_left (numeral.symm.trans (List.take_append_drop k _).symm))
  · intro completes
    rw [completes, List.take_append_drop, number_decimal]

/-- The handshake is exact exactly when the old bytes of the buffer complete the digits that the
read has got. -/
theorem exact_iff (h : (server sockfd).Reachable s) (ready : sockfd ∈ s.rset it)
    (accepts : it.accept = none) (positive : 0 < pid) (small : pid < 2 ^ 31)
    (some_bytes : 0 < k) (bound : k ≤ (greeting pid text).length)
    (delivered : it.handshake.data = (greeting pid text).take k)
    (connected : connection sockfd it (s.rset it) s = some (t, log)) :
    Exact pid text k t ↔ Completes pid k it.connectionBuffer := by
  have stored : t.pidClient 1 = atoi (received it.handshake it.connectionBuffer) := by
    cases connects_of_connection (shape h) connected with
    | none quiet => exact absurd ready quiet
    | refused _ _ refuses => cases accepts.symm.trans refuses
    | accepted _ _ _ _ _ => simp only [Server.accepted, Function.update_self]
  have length : it.handshake.data.length = k := by
    rw [delivered, List.length_take, Nat.min_eq_left bound]
  have buffered (le : k ≤ (decimal pid).length) :
      t.pidClient 1 = atoi ((decimal pid).take k ++ it.connectionBuffer.drop k) := by
    rw [stored, received, length, delivered, greeting, List.take_append_of_le_length le]
  constructor
  · rintro ⟨stored, left⟩
    have le := (left_iff bound).mp left
    rw [buffered le] at stored
    exact ⟨le, (atoi_buffer positive small some_bytes).mp stored⟩
  · rintro ⟨le, completes⟩
    refine ⟨?_, (left_iff bound).mpr le⟩
    rw [buffered le]
    exact (atoi_buffer positive small some_bytes).mpr completes

theorem exact_alone : ∃ t log,
    connection 3 (visitor 53) ((Server.start 3).rset (visitor 53)) (.start 3) = some (t, log) ∧
      Exact 5 [104, 105, 10] 1 t := by
  have reach : (server 3).Reachable (.start 3) := Component.Reachable.start
  have connected : connection 3 (visitor 53) ((Server.start 3).rset (visitor 53)) (.start 3) =
      some (_, _) := rfl
  exact ⟨_, _, connected, (exact_iff reach (by decide) rfl (by decide) (by decide) (by decide)
    (by decide) (by decide) connected).mpr ⟨by decide, .inl (by decide)⟩⟩

def merged : Iteration := { visitor 53 with handshake := .bytes 53 [55, 10] }

def stale : Iteration := { visitor 53 with connectionBuffer := [48, 55, 0] }

theorem exact_fails :
    (∃ t log, connection 3 merged ((Server.start 3).rset merged) (.start 3) = some (t, log) ∧
      ¬ Exact 5 [55, 10] 3 t) ∧
    ∃ t log, connection 3 stale ((Server.start 3).rset stale) (.start 3) = some (t, log) ∧
      ¬ Exact 5 [104, 105, 10] 1 t :=
  ⟨⟨_, _, rfl, fun exact => absurd exact.stored (by decide)⟩,
    _, _, rfl, fun exact => absurd exact.stored (by decide)⟩

end OsUnix.SelectServer
