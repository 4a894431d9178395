import OsUnix.SignalPipe.Model

/-!
# What the parent prints

Every read that does not find the end gets one message, in the order in which they were written. A
read that finds the end leaves the buffer as it is.
-/

namespace OsUnix.SignalPipe
open Kernel Kernel.Processes

variable {behind : Nat → Nat → UInt8} {tty : Bool} {s t : State} {n : Pid} {i j : Nat}
  {l l' : Local} {w r : List (List UInt8)}

def Line.text? : Line → Option (List UInt8)
  | .message text => some text
  | _ => none

def printed (s : State) : List (List UInt8) := (s.said []).filterMap Line.text?

def kept (messages : List (List UInt8)) : List UInt8 :=
  messages.getLast?.getD (List.replicate bufferSize 0)

def shown (written : List (List UInt8)) (k : Nat) : List UInt8 :=
  cstring (kept (written.take (k + 1)))

def Settled (s : State) (written read : List (List UInt8)) (j : Nat) : Prop :=
  read.length = j ∨ (¬ s.Held .writing ∧ read.length = written.length ∧ written.length ≤ j)

def Local.Turn (read : List (List UInt8)) (i j : Nat) : Local → Prop
  | .loop k b | .read k b => b = kept read ∧ i = k ∧ j = k
  | .print k b => b = kept read ∧ i = k ∧ j = k + 1
  | .wait _ _ | .report _ _ | .ok | .exit _ => (i = 0 ∨ i = 2) ∧ j = i
  | _ => i = 0 ∧ j = 0

def Turns (read : List (List UInt8)) (i j : Nat) : Entry Local Line → Prop
  | .running p => p.pc.Turn read i j
  | _ => (i = 0 ∨ i = 2) ∧ j = i

structure Progress (s : State) (written read : List (List UInt8)) (i j : Nat) : Prop where
  lines : printed s = (List.range i).map (shown written)
  settled : Settled s written read j
  turn : Turns read i j (s.entry [])

theorem Progress.le (progress : Progress s w r i j) : i ≤ j := by
  have turn := progress.turn
  cases at_root : s.entry [] with
  | running p =>
      rw [at_root, Turns] at turn
      cases at_p : p.pc <;> simp only [at_p, Local.Turn] at turn <;> omega
  | _ =>
      rw [at_root] at turn
      exact Nat.le_of_eq turn.2.symm

theorem Progress.other (progress : Progress s w r i j) (root : t.entry [] = s.entry [])
    (out : t.out = s.out) (closed : ¬ s.Held .writing → ¬ t.Held .writing) :
    Progress t w r i j := by
  obtain ⟨lines, settled, turn⟩ := progress
  refine ⟨?_, settled.imp_right (And.imp_left closed), by rwa [root]⟩
  rw [← lines, printed, printed, said_congr out root]

theorem shown_append {k : Nat} {b : List UInt8} (inside : k < w.length) :
    shown (w ++ [b]) k = shown w k := by
  rw [shown, shown, List.take_append_of_le_length inside]

theorem Progress.write (progress : Progress s w r i j) (root : t.entry [] = s.entry [])
    (out : t.out = s.out) (held : s.Held .writing) (first : r.length ≤ w.length)
    (b : List UInt8) : Progress t (w ++ [b]) r i j := by
  have le := progress.le
  obtain ⟨lines, settled, turn⟩ := progress
  have here : r.length = j := settled.resolve_right fun ended => ended.1 held
  refine ⟨?_, .inl here, by rwa [root]⟩
  rw [printed, said_congr out root, ← printed, lines]
  refine List.map_congr_left fun k mem => (shown_append ?_).symm
  have := List.mem_range.mp mem
  omega

theorem shown_last (settled : Settled s w r (i + 1)) (before : r <+: w) :
    cstring (kept r) = shown w i := by
  rw [shown]
  rcases settled with all | ⟨-, all, ended⟩
  · rw [← all, ← List.prefix_iff_eq_take.mp before]
  · rw [List.take_of_length_le ended, before.eq_of_length all]

theorem printed_print {p : Proc Local Line} (at_root : s.entry [] = .running p) {line : Line}
    {newline : Bool} : printed (s.print tty [] p line newline l) =
      printed s ++ (Line.text? line).toList := by
  rw [printed, said_print at_root, List.filterMap_append]
  cases h : line.text? <;> simp [h, printed]

theorem printed_congr (said : t.said [] = s.said []) : printed t = printed s :=
  congrArg (List.filterMap Line.text?) said

theorem Progress.moved {p q : Proc Local Line} (progress : Progress s w r i j)
    (at_root : s.entry [] = .running p) (moved : t.entry [] = .running q)
    (said : t.said [] = s.said []) (closed : ¬ s.Held .writing → ¬ t.Held .writing)
    (turn : p.pc.Turn r i j → q.pc.Turn r i j) : Progress t w r i j := by
  obtain ⟨lines, settled, here⟩ := progress
  rw [at_root] at here
  refine ⟨(printed_congr said).trans lines, settled.imp_right (And.imp_left closed), ?_⟩
  rw [moved]
  exact turn here

theorem Progress.goto {p q : Proc Local Line} (progress : Progress s w r i j)
    (at_root : s.entry [] = .running p) (buffer : q.buffer = p.buffer)
    (closed : ¬ s.Held .writing → ¬ (s.set [] (.running q)).Held .writing)
    (turn : p.pc.Turn r i j → q.pc.Turn r i j) : Progress (s.set [] (.running q)) w r i j :=
  progress.moved at_root State.set_entry_self (said_set at_root buffer) closed turn

theorem silent_of_child (behind : Nat → Nat → UInt8) {p : Proc Local Line} (here : Place n p)
    (child : n ≠ []) :
    (∀ line newline l, main behind p.pc ≠ .print line newline l) ∧ p.buffer = [] ∧
      ∀ k next, main behind p.pc ≠ .read k next := by
  obtain ⟨pc, holds, forks, caught, buffer⟩ := p
  cases pc with
  | childSleep i => exact ⟨nofun, here.2.2.1, nofun⟩
  | childTest i => exact ⟨nofun, here.2.2.1, nofun⟩
  | childClose i => exact ⟨nofun, here.2.2.1, nofun⟩
  | childWrite i => exact ⟨nofun, here.2.2.1, nofun⟩
  | exit c =>
      obtain ⟨i, -, -, empty⟩ := here.resolve_left child
      exact ⟨nofun, empty, nofun⟩
  | _ => exact absurd here.1 child

theorem turn_of_step {p : Proc Local Line} (here : Place n p) (call : main behind p.pc = .step l)
    (turn : p.pc.Turn r i j) : l.Turn r i j := by
  obtain ⟨pc, holds, forks, caught, buffer⟩ := p
  cases calls call with
  | looped all =>
      obtain ⟨-, rfl, rfl⟩ := turn
      obtain ⟨-, -, -, -, bound, -⟩ := here
      exact ⟨by omega, rfl⟩
  | _ => exact turn

theorem turn_of_caught {p : Proc Local Line} {next : Bool → Local} (here : Place n p)
    (call : main behind p.pc = .caught next) (turn : p.pc.Turn r i j) :
    (next p.caught).Turn r i j := by
  obtain ⟨pc, holds, forks, caught, buffer⟩ := p
  cases calls call with
  | childTest =>
      cases caught
      · exact ⟨.inl turn.1, turn.2.trans turn.1.symm⟩
      · exact turn
  | loop more =>
      obtain ⟨-, -, -, -, -, caught_before⟩ := here
      cases caught
      · obtain ⟨-, rfl, rfl⟩ := turn
        have first : j = 0 := Nat.eq_zero_of_not_pos fun later => nomatch caught_before later
        exact ⟨.inl first, rfl⟩
      · exact turn

theorem turn_of_wait {next : Option (Pid × Status) → Local} (call : main behind l = .wait next)
    (turn : l.Turn r i j) (child : Option (Pid × Status)) : (next child).Turn r i j := by
  cases calls call
  exact turn

theorem turn_of_fork {child failed : Local} {parent : Pid → Local}
    (call : main behind l = .fork child failed parent) (turn : l.Turn r i j) (m : Pid) :
    failed.Turn r i j ∧ (parent m).Turn r i j := by
  cases calls call
  exact ⟨⟨.inl turn.1, turn.2.trans turn.1.symm⟩, turn⟩

theorem turn_of_close {e : End} (call : main behind l = .close e l') (turn : l.Turn r i j) :
    l'.Turn r i j := by
  cases calls call <;> exact turn

structure Transfer (s : State) (w r : List (List UInt8)) : Prop where
  before : r <+: w
  ended : s.data = [] ↔ r = w
  full : s.data ≠ [] → (s.data.take bufferSize).length = bufferSize
  sizes : ∀ m ∈ r, m.length = bufferSize

theorem transfer {ops : List Event} {answers : List Answer}
    (run : (system behind tty).exec (system behind tty).start ops = some (s, answers)) :
    Transfer s ((writes answers).map Prod.snd) (reads answers) := by
  obtain ⟨pending, split, data, sizes⟩ := messages sized (by decide) run
  refine ⟨⟨pending, split.symm⟩, ⟨fun empty => ?_, fun all => ?_⟩, fun more => ?_, fun m mem => ?_⟩
  · cases pending with
    | nil => rw [split, List.append_nil]
    | cons m rest =>
        rw [data, List.flatten_cons, List.append_eq_nil_iff] at empty
        have := sizes m List.mem_cons_self
        rw [empty.1] at this
        cases this
  · rw [← all, List.self_eq_append_right] at split
    rw [data, split]
    rfl
  · cases pending with
    | nil => exact absurd data more
    | cons m rest =>
        rw [data, List.flatten_cons, List.take_left' (sizes m List.mem_cons_self)]
        exact sizes m List.mem_cons_self
  · have mem_w : m ∈ (writes answers).map Prod.snd := split ▸ List.mem_append_left _ mem
    obtain ⟨e, mem_e, rfl⟩ := List.mem_map.mp mem_w
    obtain ⟨i, -, rfl⟩ := written run e mem_e
    exact length_message

theorem Transfer.length_kept (transfer : Transfer s w r) : (kept r).length = bufferSize := by
  rw [kept]
  cases last : r.getLast? with
  | none => exact List.length_replicate
  | some m => exact transfer.sizes m (List.mem_of_getLast? last)

theorem Transfer.filled_eq (transfer : Transfer s w r) {m : List UInt8}
    (length : m.length = bufferSize) : filled (kept r) (some m) = kept (r ++ [m]) := by
  have whole : (kept r).length ≤ m.length := Nat.le_of_eq (transfer.length_kept.trans length.symm)
  rw [filled, List.drop_of_length_le whole, List.append_nil]
  simp [kept]

theorem Settled.length_le (settled : Settled s w r j) : r.length ≤ j := by
  rcases settled with all | ⟨-, all, ended⟩
  · exact Nat.le_of_eq all
  · exact all ▸ ended

theorem Progress.read {p : Proc Local Line} {k : Nat} {next : Option (List UInt8) → Local}
    (progress : Progress s w r i j) (at_root : s.entry [] = .running p)
    (call : main behind p.pc = .read k next) (transfer : Transfer s w r) :
    (s.data ≠ [] → Progress { s.goto [] p (next (some (s.data.take k))) with
      data := s.data.drop k } w (r ++ [s.data.take k]) i (j + 1)) ∧
    (s.data = [] → ¬ (s.goto [] p (next (some []))).Held .writing →
      Progress (s.goto [] p (next (some []))) w r i (j + 1)) := by
  obtain ⟨c, b, at_read, rfl, rfl⟩ := read_call call
  obtain ⟨lines, settled, turn⟩ := progress
  rw [at_root, Turns, at_read] at turn
  obtain ⟨rfl, rfl, rfl⟩ := turn
  constructor
  · intro more
    have all : r.length = j := by
      refine settled.resolve_right fun ended => more (transfer.ended.mpr ?_)
      exact transfer.before.eq_of_length ended.2.1
    refine ⟨?_, .inl (by simp [all]), ?_⟩
    · exact (printed_congr (said_set at_root rfl)).trans lines
    · show Turns _ j (j + 1) ((s.goto [] p _).entry [])
      rw [State.goto, State.set_entry_self]
      exact ⟨transfer.filled_eq (transfer.full more), rfl, rfl⟩
  · intro empty closed
    have all := transfer.ended.mp empty
    refine ⟨?_, .inr ⟨closed, congrArg _ all, ?_⟩, ?_⟩
    · exact (printed_congr (said_set at_root rfl)).trans lines
    · rw [← all]
      exact Nat.le_succ_of_le settled.length_le
    · rw [State.goto, State.set_entry_self]
      exact ⟨rfl, rfl, rfl⟩

theorem Progress.print {p : Proc Local Line} {line : Pid → Option Pid → Line} {newline : Bool}
    (progress : Progress s w r i j) (at_root : s.entry [] = .running p)
    (call : main behind p.pc = .print line newline l) (transfer : Transfer s w r) (m : Option Pid)
    (closed : ¬ s.Held .writing → ¬ (s.print tty [] p (line [] m) newline l).Held .writing) :
    ∃ i, Progress (s.print tty [] p (line [] m) newline l) w r i j := by
  obtain ⟨lines, settled, turn⟩ := progress
  have settled : Settled (s.print tty [] p (line [] m) newline l) w r j :=
    settled.imp_right (And.imp_left closed)
  obtain ⟨buffer, moved⟩ := State.print_entry s tty [] p (line [] m) newline l
  have line_printed : printed (s.print tty [] p (line [] m) newline l) = _ :=
    printed_print at_root
  rw [at_root, Turns] at turn
  have silent (quiet : Line.text? (line [] m) = none) (same : l.Turn r i j) :
      ∃ i, Progress (s.print tty [] p (line [] m) newline l) w r i j := by
    rw [quiet, Option.toList_none, List.append_nil] at line_printed
    exact ⟨i, line_printed.trans lines, settled, by rw [moved, State.set_entry_self]; exact same⟩
  generalize p.pc = l₀ at call turn
  cases calls call with
  | newline =>
      obtain ⟨rfl, rfl⟩ := turn
      have none : r = [] := List.eq_nil_of_length_eq_zero (Nat.le_zero.mp settled.length_le)
      exact silent rfl ⟨by rw [none]; rfl, rfl, rfl⟩
  | print =>
      obtain ⟨rfl, rfl, rfl⟩ := turn
      refine ⟨i + 1, ?_, settled, ?_⟩
      · rw [line_printed, lines, List.range_succ, List.map_append]
        exact congrArg (_ ++ [·]) (shown_last settled transfer.before)
      · rw [moved, State.set_entry_self]
        exact ⟨rfl, rfl, rfl⟩
  | report => exact silent rfl turn
  | ok => exact silent rfl turn

theorem Progress.root {e : Event} {a : Answer} (progress : Progress s w r i j)
    (step : Step (main behind) tty s e t a) (own : e.name = []) (named : Named s)
    (here : ∀ p, s.entry [] = .running p → Place [] p) (transfer : Transfer s w r) :
    ∃ i j, Progress t (w ++ a.write?.toList.map Prod.snd) (r ++ a.read?.toList) i j := by
  have closed := step.shape.closed named (e := .writing)
  have no_write {p : Proc Local Line} {bytes : List UInt8} {l : Local}
      (at_root : s.entry [] = .running p) : main behind p.pc ≠ .write bytes l := by
    intro call
    obtain ⟨i, at_write, -⟩ := write_call call
    have place := here p at_root
    rw [Place, at_write] at place
    cases place.1
  have silent (same : a.write? = none) (same' : a.read? = none) (p : ∃ i j, Progress t w r i j) :
      ∃ i j, Progress t (w ++ a.write?.toList.map Prod.snd) (r ++ a.read?.toList) i j := by
    simpa [same, same'] using p
  cases step with
  | @step n p l at_n call =>
      obtain rfl : n = [] := own
      exact silent rfl rfl ⟨i, j, progress.goto at_n rfl closed
        (turn_of_step (here p at_n) call)⟩
  | @caught n p next at_n call =>
      obtain rfl : n = [] := own
      exact silent rfl rfl ⟨i, j, progress.goto at_n rfl closed
        (turn_of_caught (here p at_n) call)⟩
  | @fork n p child failed parent at_n call =>
      obtain rfl : n = [] := own
      have said : (s.fork [] p child (parent [p.forks])).said [] = s.said [] := by
        rw [State.said, State.said, State.fork_entry_parent, at_n]
        rfl
      exact silent rfl rfl ⟨i, j, progress.moved at_n State.fork_entry_parent said closed
        fun turn => (turn_of_fork call turn _).2⟩
  | @print n p line newline l at_n call =>
      obtain rfl : n = [] := own
      obtain ⟨i, later⟩ := progress.print at_n call transfer _ closed
      exact silent rfl rfl ⟨i, j, later⟩
  | @close n p e l at_n call =>
      obtain rfl : n = [] := own
      exact silent rfl rfl ⟨i, j, progress.goto at_n rfl closed
        (turn_of_close call)⟩
  | @readData n p k next at_n call holds more =>
      obtain rfl : n = [] := own
      have later := (progress.read at_n call transfer).1 more
      obtain ⟨-, -, -, rfl, -⟩ := read_call call
      have length := transfer.full more
      refine ⟨i, j + 1, ?_⟩
      cases eq : s.data.take bufferSize with
      | nil => rw [eq] at length; cases length
      | cons c bytes =>
          rw [eq] at later
          simpa [Answer.write?, Answer.read?] using later
  | @readEnd n p k next at_n call holds empty ended =>
      obtain rfl : n = [] := own
      exact silent rfl rfl ⟨i, j + 1, (progress.read at_n call transfer).2 empty (closed ended)⟩
  | @readFails n p k next at_n call holds =>
      obtain rfl : n = [] := own
      obtain ⟨c, b, at_read, -⟩ := read_call call
      have place := here p at_n
      rw [Place, at_read] at place
      rw [place.2.2.1] at holds
      cases holds
  | write at_n call =>
      obtain rfl := own
      exact absurd call (no_write at_n)
  | writeBroken at_n call =>
      obtain rfl := own
      exact absurd call (no_write at_n)
  | writeFails at_n call =>
      obtain rfl := own
      exact absurd call (no_write at_n)
  | @waitNone n p next at_n call =>
      obtain rfl : n = [] := own
      exact silent rfl rfl ⟨i, j, progress.goto at_n rfl closed
        fun turn => turn_of_wait call turn _⟩
  | @exit n p c at_n call =>
      obtain rfl : n = [] := own
      obtain ⟨lines, settled, turn⟩ := progress
      rw [at_n, Turns] at turn
      refine silent rfl rfl ⟨i, j, (printed_congr (said_exit at_n c)).trans lines,
        settled.imp_right (And.imp_left closed), ?_⟩
      rw [State.exit, State.set_entry_self]
      generalize p.pc = l₀ at call turn
      cases calls call
      exact turn
  | @forkFails n p child failed parent at_n call =>
      obtain rfl : n = [] := own
      exact silent rfl rfl ⟨i, j, progress.goto at_n rfl closed
        fun turn => (turn_of_fork call turn []).1⟩
  | @reap n p k status next at_n call zombie =>
      obtain rfl : n = [] := own
      have root : ((s.goto [] p (next (some ([k], status)))).set [k] .absent).entry [] =
          .running { p with pc := next (some ([k], status)) } :=
        (State.set_entry_of_ne (List.cons_ne_nil k []).symm).trans State.set_entry_self
      have said : ((s.goto [] p (next (some ([k], status)))).set [k] .absent).said [] =
          s.said [] := by
        rw [State.said, State.said, root, at_n]
        rfl
      exact silent rfl rfl ⟨i, j, progress.moved at_n root said closed
        fun turn => turn_of_wait call turn _⟩
  | @signal n p at_n =>
      obtain rfl : n = [] := own
      exact silent rfl rfl ⟨i, j, progress.goto at_n rfl closed id⟩
  | exec at_n call => exact absurd call (no_exec _ _ _)
  | execFails at_n call => exact absurd call (no_exec _ _ _)
  | ends at_n call => exact absurd call (no_image _)

theorem exists_progress {events : List Event} {answers : List Answer}
    (run : (system behind tty).exec (system behind tty).start events = some (s, answers)) :
    ∃ i j, Progress s ((writes answers).map Prod.snd) (reads answers) i j := by
  apply Component.exec_answers (I := fun (s : State) answers =>
    ∃ i j, Progress s ((writes answers).map Prod.snd) (reads answers) i j) run
  · exact ⟨0, 0, rfl, .inl rfl, rfl, rfl⟩
  · rintro ops s answers e t a - earlier ⟨i, j, progress⟩ next
    have reach : (system behind tty).Reachable s := ⟨ops, answers, earlier⟩
    have step := step_cases next
    have named : Named s := named reach
    have transfer := transfer earlier
    rw [writes_concat, reads_concat, List.map_append]
    by_cases own : e.name = []
    · exact progress.root step own named (fun p => place reach) transfer
    · obtain ⟨p, at_n⟩ := step.exists_running
      obtain ⟨no_print, empty, no_read⟩ := silent_of_child behind (place reach at_n) own
      have root : t.entry [] = s.entry [] :=
        step.entry_of_ne (Ne.symm own) fun k => (List.cons_ne_nil k _).symm
      have out := step.out_eq at_n no_print empty
      have quiet : a.read? = none := step.read_eq_none at_n no_read
      rw [quiet, Option.toList_none, List.append_nil]
      rcases step.wrote with silent | ⟨n, q, bytes, l, at_q, call, holds, rfl, -⟩
      · rw [silent]
        simpa using ⟨i, j, progress.other root out (step.shape.closed named)⟩
      · have held : s.Held .writing := ⟨n, named.mem at_q, by rw [at_q]; exact holds⟩
        exact ⟨i, j, progress.write root out held transfer.before.length_le bytes⟩

def heard (writers : List Pid) (k : Nat) : List UInt8 :=
  match (writers.take (k + 1)).getLast? with
  | some (c :: _) => text c
  | _ => []

theorem shown_eq_heard {answers : List Answer}
    (own : ∀ e ∈ writes answers, ∃ i < 2, e = ([i], message behind i)) (k : Nat) :
    shown ((writes answers).map Prod.snd) k = heard ((writes answers).map Prod.fst) k := by
  rw [shown, heard, kept, ← List.map_take, ← List.map_take, List.getLast?_map, List.getLast?_map]
  cases last : ((writes answers).take (k + 1)).getLast? with
  | none => decide
  | some e =>
      obtain ⟨c, -, rfl⟩ := own e (List.mem_of_mem_take (List.mem_of_getLast? last))
      exact cstring_message

theorem Progress.turn_le (progress : Progress s w r i j)
    (here : ∀ p, s.entry [] = .running p → Place [] p) : i ≤ 2 := by
  have turn := progress.turn
  cases at_root : s.entry [] with
  | running p =>
      have place := here p at_root
      rw [at_root, Turns] at turn
      rw [Place] at place
      cases at_p : p.pc <;> simp only [at_p, Local.Turn] at turn place <;> omega
  | _ =>
      rw [at_root] at turn
      exact turn.1.elim (by omega) (by omega)

/-- Whenever the signal comes and to whom, each child writes its message once at most, and the
parent has printed what the children wrote in the order in which they wrote it: in the end two
messages or none. When only one child has written, its message is printed twice. -/
theorem prints_in_order (behind : Nat → Nat → UInt8) (tty : Bool) (events : List Event) (s : State)
    (answers : List Answer)
    (run : (system behind tty).exec (system behind tty).start events = some (s, answers)) :
    ((writes answers).map Prod.fst).Nodup ∧
      (∀ e ∈ writes answers, ∃ i < 2, e = ([i], message behind i)) ∧
      ∃ i ≤ 2, printed s = (List.range i).map (heard ((writes answers).map Prod.fst)) ∧
        ((s.entry []).isRunning = false → i = 0 ∨ i = 2) := by
  have own := written run
  obtain ⟨i, j, progress⟩ := exists_progress run
  refine ⟨(writes_once writes_after run).1, own, i, ?_, ?_, fun ended => ?_⟩
  · exact progress.turn_le fun p => place ⟨events, answers, run⟩
  · rw [progress.lines]
    exact List.map_congr_left fun k _ => shown_eq_heard own k
  · have turn := progress.turn
    cases at_root : s.entry [] with
    | running p => rw [at_root] at ended; cases ended
    | _ =>
        rw [at_root] at turn
        exact turn.1

def oneChild : List Event :=
  [.run [], .run [], .signal [], .signal [1], .run [], .run [], .run [], .run [1], .run [1],
    .run [1], .run [1], .run [1], .run [0], .run [0], .run [0], .run [], .run [], .run [], .run [],
    .run [], .run [], .run [], .run [], .reap [] 1, .run [], .reap [] 0, .run [], .run [], .run [],
    .run []]

theorem prints_in_order_twice : ∃ (s : State) (answers : List Answer),
    printed s = [msg2, msg2] ∧ (s.entry []).isRunning = false ∧
      ((writes answers).map Prod.fst).Nodup := by
  have ends : ((system (fun _ _ => 1) true).exec (system (fun _ _ => 1) true).start oneChild).any
      (fun r => printed r.1 == [msg2, msg2] && !(r.1.entry []).isRunning) = true := by
    decide +kernel
  obtain ⟨⟨s, answers⟩, run, shown⟩ := (Option.any_eq_true _ _).mp ends
  simp only [Bool.and_eq_true, beq_iff_eq, Bool.not_eq_true'] at shown
  exact ⟨s, answers, shown.1, shown.2, (prints_in_order _ _ _ _ _ run).1⟩

end OsUnix.SignalPipe
