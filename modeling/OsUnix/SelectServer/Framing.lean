import OsUnix.SelectServer.Conversation

/-!
# What becomes of the lines

One line sent is at least two bytes, and each read of the server makes a message.
-/

namespace OsUnix.SelectServer
open Kernel

variable {rest : Nat → List UInt8} {lines typed : List (List UInt8)} {line bs : List UInt8}
  {c d : Conversation} {turn : Turn} {turns : List Turn} {answers : List Unit}

theorem Typed.ne_exit (typed : Typed line) (other : line ≠ exit) : cstring line ≠ exit := by
  intro same
  obtain ⟨text, free, rfl⟩ := typed
  have start : exit <+: text ++ [10] := same ▸ List.takeWhile_prefix _
  rcases List.prefix_concat_iff.mp start with whole | inside
  · exact other whole.symm
  · exact free (inside.subset (by decide))

theorem Typed.pos (typed : Typed line) : 0 < line.length := by
  obtain ⟨text, -, rfl⟩ := typed
  simp

theorem exec_turn {c d : Conversation} {turn : Turn} (step : c.turn rest turn = some d) :
    (conversation rest lines).step c turn = some (d, ()) :=
  Component.silent_step.mpr step

theorem exists_drained (rest : Nat → List UInt8) (lines : List (List UInt8)) (c : Conversation) :
    ∃ turns answers d,
    (conversation rest lines).exec c turns = some (d, answers) ∧ d.typed = c.typed ∧
      d.phase = c.phase ∧ d.toServer = [] ∧ c.toClient.length ≤ d.toClient.length ∧
      (c.toServer ≠ [] → d.toClient ≠ []) ∧
      d.messages.length = c.messages.length + c.toServer.length := by
  induction flight : c.toServer generalizing c with
  | nil => exact ⟨[], [], c, rfl, rfl, rfl, flight, Nat.le_refl _, absurd rfl, rfl⟩
  | cons b bs ih =>
      let next := { c with
        toServer := bs
        toClient := c.toClient ++ good
        messages := c.messages ++ [cstring (received (.of [b]) [])] }
      have serves : c.turn rest (.serve 1 []) = some next := by
        simp [Conversation.turn, flight, sizeBuffer, next]
      obtain ⟨turns, answers, d, run, typed, phase, empty, more, -, count⟩ := ih next rfl
      refine ⟨_, _, d, Component.exec_cons (exec_turn serves) run, typed, phase, empty, ?_, ?_, ?_⟩
      · exact Nat.le_trans (by simp [next]) more
      · intro _
        apply List.ne_nil_of_length_pos
        exact Nat.lt_of_lt_of_le (by simp [next, good]) more
      · rw [count]
        simp only [next, List.length_append, List.length_cons, List.length_nil]
        omega

theorem exists_sent (lines : List (List UInt8)) (phase : c.phase = .typing)
    (first : c.typed = line :: typed) (empty : c.toServer = []) (pos : 0 < line.length)
    (other : cstring line ≠ exit) :
    ∃ turns answers d, (conversation rest lines).exec c turns = some (d, answers) ∧
      d.typed = typed ∧ d.phase = .typing ∧ d.toServer = [] ∧
      c.messages.length + 2 ≤ d.messages.length := by
  let sent := { c with
    typed, calls := c.calls + 1, phase := .waiting, toServer := line ++ 0 :: rest c.calls }
  have types : c.turn rest .type = some sent := by
    simp [Conversation.turn, phase, first, empty, cstring_append, other, sent]
  obtain ⟨turns, answers, d, run, still, waiting, drained, -, replied, count⟩ :=
    exists_drained rest lines sent
  have some_reply : d.toClient ≠ [] := replied (by simp [sent])
  let read := { d with
    phase := .typing, toClient := d.toClient.drop 1, replies := d.replies ++ d.toClient.take 1 }
  have reads : d.turn rest (.read 1) = some read := by
    have := List.length_pos_of_ne_nil some_reply
    simp only [Conversation.turn]
    exact if_pos ⟨waiting, by decide, by decide, this⟩
  have back : (conversation rest lines).exec d [.read 1] = some (read, [()]) :=
    Component.exec_cons (exec_turn reads) rfl
  refine ⟨_, _, read, Component.exec_cons (exec_turn types) (Component.exec_append run back),
    still, rfl, drained, ?_⟩
  show _ ≤ d.messages.length
  rw [count]
  simp only [sent, List.length_append, List.length_cons]
  omega

theorem exists_complete (rest : Nat → List UInt8) (lines : List (List UInt8))
    (c : Conversation) (good_lines : ∀ line ∈ typed, Typed line ∧ line ≠ exit)
    (phase : c.phase = .typing) (left : c.typed = typed ++ [exit]) (empty : c.toServer = []) :
    ∃ turns answers d, (conversation rest lines).exec c turns = some (d, answers) ∧ d.Complete ∧
      c.messages.length + 2 * typed.length ≤ d.messages.length := by
  induction typed generalizing c with
  | nil =>
      let gone := { c with typed := [], calls := c.calls + 1, phase := .left }
      have leaves : c.turn rest .type = some gone := by
        have last : cstring exit = exit := by decide
        simp [Conversation.turn, phase, left, cstring_append, last, gone]
      have run : (conversation rest lines).exec c [.type] = some (gone, [()]) :=
        Component.exec_cons (exec_turn leaves) rfl
      exact ⟨_, _, gone, run, ⟨rfl, empty⟩, Nat.le_refl _⟩
  | cons line typed ih =>
      obtain ⟨⟨newline, other⟩, later⟩ := List.forall_mem_cons.mp good_lines
      obtain ⟨turns, answers, d, run, still, phase', empty', count⟩ :=
        exists_sent lines phase left empty newline.pos (newline.ne_exit other)
      obtain ⟨turns', answers', e, run', complete, count'⟩ := ih d later phase' still empty'
      refine ⟨_, _, e, Component.exec_append run run', complete, ?_⟩
      rw [List.length_cons]
      omega

theorem turn_nothing (phase : c.phase = .typing ∧ c.typed = [exit] ∨ c.phase = .left)
    (empty : c.toServer = []) (step : c.turn rest turn = some d) :
    d.phase = .left ∧ d.toServer = [] ∧ d.messages = c.messages ∧ d.replies = c.replies := by
  cases turn with
  | type =>
      rcases phase with ⟨phase, typed⟩ | phase
      · have last : cstring exit = exit := by decide
        simp only [Conversation.turn, phase, typed, cstring_append, last, if_true,
          Option.some.injEq] at step
        subst step
        exact ⟨rfl, empty, rfl, rfl⟩
      · simp [Conversation.turn, phase] at step
  | serve k buffer =>
      simp only [Conversation.turn, empty, List.length_nil] at step
      rw [if_neg (by omega)] at step
      cases step
  | read k =>
      rcases phase with ⟨phase, -⟩ | phase
      · simp [Conversation.turn, phase] at step
      · simp [Conversation.turn, phase] at step

theorem roundTrip_nothing
    (run : (conversation rest []).exec (.start []) turns = some (c, answers)) : RoundTrip [] c := by
  have kept := Component.exec_invariant (I := fun c : Conversation =>
    (c.phase = .typing ∧ c.typed = [exit] ∨ c.phase = .left) ∧ c.toServer = [] ∧
      c.messages = [] ∧ c.replies = []) run ⟨.inl ⟨rfl, rfl⟩, rfl, rfl, rfl⟩
    fun {c turn d _} inv step => by
      obtain ⟨phase, empty, messages, replies⟩ := inv
      obtain ⟨phase', empty', messages', replies'⟩ :=
        turn_nothing phase empty (Component.silent_step.mp step)
      exact ⟨.inr phase', empty', messages'.trans messages, replies'.trans replies⟩
  exact ⟨kept.2.2.1, kept.2.2.2⟩

/-- However the streams are cut, the lines arrive as they were typed, exactly when none is typed. -/
theorem framing_iff (rest : Nat → List UInt8) (lines : List (List UInt8))
    (good_lines : ∀ line ∈ lines, Typed line ∧ line ≠ exit) :
    (∀ turns c answers, (conversation rest lines).exec (.start lines) turns = some (c, answers) →
      c.Complete → RoundTrip lines c) ↔ lines = [] := by
  constructor
  · intro framed
    obtain ⟨turns, answers, c, run, complete, count⟩ :=
      exists_complete rest lines (.start lines) good_lines rfl rfl rfl
    have messages := congrArg List.length (framed turns c answers run complete).messages
    apply List.eq_nil_of_length_eq_zero
    simp only [Conversation.start, List.length_nil] at count
    omega
  · rintro rfl turns c answers run -
    exact roundTrip_nothing run

inductive Loaded (lines : List (List UInt8)) (c : Conversation) : Prop
  | typing (typed : List (List UInt8)) (sent : Nat) (talking : c.phase ≠ .left)
      (left : c.typed = typed ++ [exit]) (others : ∀ line ∈ typed, cstring line ≠ exit)
      (all : sent + typed.length = lines.length)
      (load : sent * (sizeBuffer + 1) ≤ c.messages.length * sizeBuffer + c.toServer.length)
  | left (gone : c.phase = .left) (load : lines.length * (sizeBuffer + 1) ≤
      c.messages.length * sizeBuffer + c.toServer.length)

theorem Loaded.type (long : ∀ n, sizeBuffer ≤ (rest n).length) (loaded : Loaded lines c)
    (step : c.turn rest .type = some d) : Loaded lines d := by
  cases loaded with
  | left gone _ => simp [Conversation.turn, gone] at step
  | typing typed sent talking left others all load =>
      cases phase : c.phase with
      | waiting => simp [Conversation.turn, phase] at step
      | left => exact absurd phase talking
      | typing =>
          cases typed with
          | nil =>
              have last : cstring exit = exit := by decide
              simp only [Conversation.turn, phase, left, List.nil_append, cstring_append, last,
                if_true, Option.some.injEq] at step
              subst step
              refine .left rfl ?_
              rwa [← all]
          | cons line typed =>
              obtain ⟨other, others⟩ := List.forall_mem_cons.mp others
              simp only [Conversation.turn, phase, left, List.cons_append, cstring_append, other,
                if_false, Option.some.injEq] at step
              subst step
              have more := long c.calls
              refine .typing typed (sent + 1) nofun rfl others ?_ ?_
              · rw [List.length_cons] at all
                omega
              · simp only [List.length_append, List.length_cons]
                rw [Nat.succ_mul]
                omega

theorem Loaded.serve {k : Nat} {buffer : List UInt8} (loaded : Loaded lines c)
    (step : c.turn rest (.serve k buffer) = some d) : Loaded lines d := by
  rw [Conversation.turn] at step
  split at step
  · rename_i bound
    cases step
    -- the bytes that the server reads are those of one more message
    have spent {m : Nat} (load : m ≤ c.messages.length * sizeBuffer + c.toServer.length) :
        m ≤ (c.messages ++ [cstring (received (.of (c.toServer.take k)) buffer)]).length *
          sizeBuffer + (c.toServer.drop k).length := by
      rw [List.length_append, List.length_singleton, List.length_drop, Nat.succ_mul]
      omega
    cases loaded with
    | left gone load => exact .left gone (spent load)
    | typing typed sent talking left others all load =>
        exact .typing typed sent talking left others all (spent load)
  · cases step

theorem Loaded.read {k : Nat} (loaded : Loaded lines c)
    (step : c.turn rest (.read k) = some d) : Loaded lines d := by
  rw [Conversation.turn] at step
  split at step
  · rename_i bound
    cases step
    cases loaded with
    | left gone _ => cases bound.1.symm.trans gone
    | typing typed sent _ left others all load =>
        exact .typing typed sent nofun left others all load
  · cases step

theorem Loaded.step (long : ∀ n, sizeBuffer ≤ (rest n).length) (loaded : Loaded lines c)
    (step : c.turn rest turn = some d) : Loaded lines d := by
  cases turn with
  | type => exact loaded.type long step
  | serve k buffer => exact loaded.serve step
  | read k => exact loaded.read step

/-- With buffers that are longer than a read, no segmentation frames the lines. -/
theorem never_framed (long : ∀ n, sizeBuffer ≤ (rest n).length) (some_line : lines ≠ [])
    (good_lines : ∀ line ∈ lines, Typed line ∧ line ≠ exit)
    (run : (conversation rest lines).exec (.start lines) turns = some (c, answers))
    (complete : c.Complete) : ¬ RoundTrip lines c := by
  intro framed
  have loaded : Loaded lines c := Component.exec_invariant run
    (.typing lines 0 nofun rfl
      (fun line mem => (good_lines line mem).1.ne_exit (good_lines line mem).2)
      (Nat.zero_add _) (by simp))
    fun loaded step => loaded.step long (Component.silent_step.mp step)
  have positive := List.length_pos_of_ne_nil some_line
  cases loaded with
  | typing _ _ talking _ _ _ _ => exact talking complete.1
  | left _ load =>
      rw [framed.messages, complete.2, List.length_nil, Nat.mul_succ] at load
      omega

def hello : List UInt8 := [104, 105, 10]

theorem typed_hello : Typed hello := ⟨[104, 105], by decide, rfl⟩

theorem never_framed_hello : ∃ c answers,
    (conversation (fun _ => List.replicate 116 0) [hello]).exec (.start [hello])
      [.type, .serve 60 [], .read 4, .type, .serve 60 []] = some (c, answers) ∧
    ¬ RoundTrip [hello] c := by
  have ends : ((conversation (fun _ => List.replicate 116 0) [hello]).exec (.start [hello])
      [.type, .serve 60 [], .read 4, .type, .serve 60 []]).any (fun r =>
        r.1.phase == .left && r.1.toServer == []) = true := by
    decide +kernel
  obtain ⟨⟨c, answers⟩, run, complete⟩ := (Option.any_eq_true _ _).mp ends
  simp only [Bool.and_eq_true, beq_iff_eq] at complete
  exact ⟨c, answers, run, never_framed (fun _ => by rw [List.length_replicate]; decide) nofun
    (List.forall_mem_singleton.mpr ⟨typed_hello, by decide⟩) run complete⟩

theorem framing_hello : ¬ ∀ turns c answers,
    (conversation (fun _ => []) [hello]).exec (.start [hello]) turns = some (c, answers) →
      c.Complete → RoundTrip [hello] c := fun framed =>
  absurd ((framing_iff (fun _ => []) [hello]
    (List.forall_mem_singleton.mpr ⟨typed_hello, by decide⟩)).mp framed) (by decide)

set_option maxRecDepth 4000 in
theorem framing_fails : (Typed hello ∧ hello ≠ exit) ∧ ∃ c answers,
    (conversation (fun _ => List.replicate 116 0) [hello]).exec (.start [hello])
      [.type, .serve 100 (List.replicate 100 0), .read 4, .type,
        .serve 20 (List.replicate 100 0)] = some (c, answers) ∧
    c.Complete ∧ ¬ RoundTrip [hello] c :=
  ⟨⟨typed_hello, by decide⟩, _, _, rfl, ⟨rfl, rfl⟩, fun framed => by
    have messages : [hello, []] = [hello] := framed.messages
    exact absurd messages (by decide)⟩

end OsUnix.SelectServer
