import OsUnix.SecretLetter.Model

/-!
# What the child reads

The child finds the end when the parent has ended, and then the parent has written.
-/

namespace OsUnix.SecretLetter
open Kernel Kernel.Processes

variable {tty : Bool} {s t : State} {n : Pid} {l : Local} {e : Event} {a : Answer}
  {w : List (Pid × List UInt8)} {r : List UInt8}

def Local.unsent : Local → Bool
  | .exit _ => false
  | _ => true

def unsent : Entry Local Line → Bool
  | .running p => p.pc.unsent
  | _ => false

structure Sent (s : State) (w : List (Pid × List UInt8)) : Prop where
  alone : [0] ∉ s.names → w = []
  before : unsent (s.entry []) = true → w = []
  after : unsent (s.entry []) = false → [0] ∈ s.names → ∃ b, w = [([], mail b)]

def printed (s : State) : List (List UInt8) := (s.said [0]).filterMap Line.text?

theorem printed_congr (said : t.said [0] = s.said [0]) : printed t = printed s :=
  congrArg (List.filterMap Line.text?) said

theorem printed_print {p : Proc Local Line} (at_child : s.entry [0] = .running p) {line : Line}
    {newline : Bool} : printed (s.print tty [0] p line newline l) =
      printed s ++ (Line.text? line).toList := by
  rw [printed, said_print at_child, List.filterMap_append]
  cases h : line.text? <;> simp [h, printed]

def padded (r : List UInt8) : List UInt8 := r ++ List.replicate (64 - r.length) 0

def Local.Has (w : List (Pid × List UInt8)) (r : List UInt8) (texts : List (List UInt8)) :
    Local → Prop
  | .loop i msg => i = r.length ∧ msg = padded r ∧ texts = []
  | .reading msg | .print msg => ∃ b, w = [([], mail b)] ∧ msg = padded (mail b) ∧ texts = []
  | .exit _ => ∃ b, w = [([], mail b)] ∧ texts = [mail b]
  | _ => r = [] ∧ texts = []

def Has (w : List (Pid × List UInt8)) (r : List UInt8) (texts : List (List UInt8)) (s : State) :
    Prop :=
  match s.entry [0] with
  | .running p => p.pc.Has w r texts
  | _ => ([0] ∉ s.names → r = [] ∧ texts = []) ∧
      ([0] ∈ s.names → ∃ b, w = [([], mail b)] ∧ texts = [mail b])

theorem length_mail (b : Bool) : (mail b).length ≤ 42 := by
  cases b <;> decide

theorem cstring_padded (b : Bool) : cstring (padded (mail b)) = mail b := by
  cases b <;> decide

/-! ## The parent -/

theorem Sent.congr (sent : Sent s w) (same : unsent (t.entry []) = unsent (s.entry []))
    (names : t.names = s.names) : Sent t w :=
  ⟨fun none => sent.alone (names ▸ none), fun now => sent.before (same ▸ now),
    fun now mem => sent.after (same ▸ now) (names ▸ mem)⟩

theorem Has.congr (has : Has w r (printed s) s) (child : t.entry [0] = s.entry [0])
    (names : t.names = s.names) (texts : printed t = printed s) : Has w r (printed t) t := by
  rw [Has, child, names, texts]
  exact has

theorem Has.write (has : Has [] r (printed s) s) (named : [0] ∈ s.names) (b : Bool) :
    Has [([], mail b)] r (printed s) s ∧ ∃ p, s.entry [0] = .running p ∧ ∀ c, p.pc ≠ .exit c := by
  rw [Has] at has ⊢
  cases at_child : s.entry [0] with
  | running p =>
      rw [at_child] at has
      cases at_p : p.pc with
      | reading msg | print msg | exit c =>
          simp only [at_p, Local.Has] at has
          obtain ⟨b', none, -⟩ := has
          cases none
      | _ =>
          simp only [at_p, Local.Has] at has ⊢
          exact ⟨has, p, rfl, by simp [at_p]⟩
  | _ =>
      rw [at_child] at has
      obtain ⟨b', none, -⟩ := has.2 named
      cases none

theorem printed_parent {p : Proc Local Line} (step : Step main tty s e t a)
    (at_root : s.entry [] = .running p) (own : e.name = []) (here : Place [] p)
    (child : (t.entry [0]).buffer = (s.entry [0]).buffer) : printed t = printed s := by
  obtain ⟨lines, out, from_p⟩ := step.out_eq_append (own ▸ at_root)
  have quiet : lines.filterMap Line.text? = [] := by
    refine List.filterMap_eq_nil_iff.mpr fun x mem => ?_
    have kept : p.buffer.filterMap Line.text? = [] ∧
        ∀ line newline l m, main p.pc = .print line newline l → (line [] m).text? = none := by
      obtain ⟨pc, holds, forks, caught, buffer⟩ := p
      cases pc with
      | fork => exact ⟨by rw [here.2.2.1]; rfl, nofun⟩
      | close => exact ⟨by rw [here.2.2.1]; rfl, nofun⟩
      | waiting =>
          refine ⟨by rw [here.2.2.1]; rfl, fun line newline l m call => ?_⟩
          cases call
          rfl
      | sleep | test | write b => exact ⟨here.2.2.1, nofun⟩
      | exit c => exact ⟨(here.resolve_left nofun).2, nofun⟩
      | _ => cases here.1
    rcases from_p x mem with old | ⟨line, newline, l, call, rfl⟩
    · exact List.filterMap_eq_nil_iff.mp kept.1 x old
    · rw [own]
      exact kept.2 line newline l _ call
  rw [printed, printed, State.said, State.said, out, child]
  simp [List.filterMap_append, quiet]

theorem parent_step {p : Proc Local Line} (step : Step main tty s e t a)
    (at_root : s.entry [] = .running p) (own : e.name = []) (here : Place [] p) (named : Named s)
    (child_here : ∀ q, s.entry [0] = .running q → Place [0] q)
    (sent : Sent s w) (has : Has w r (printed s) s) :
    Sent t (w ++ a.write?.toList) ∧ Has (w ++ a.write?.toList) r (printed t) t := by
  have outcome := step.outcome (own ▸ at_root)
  have texts := printed_parent step at_root own here
  rw [own] at outcome
  have quiet {x : Entry Local Line} (silent : a.write? = none)
      (entry : t.entry = (s.set [] x).entry) (names : t.names = s.names)
      (same : unsent x = unsent (s.entry [])) :
      Sent t (w ++ a.write?.toList) ∧ Has (w ++ a.write?.toList) r (printed t) t := by
    have root : t.entry [] = x := by rw [entry, State.set_entry_self]
    have child : t.entry [0] = s.entry [0] := by
      rw [entry, State.set_entry_of_ne (List.cons_ne_nil 0 [])]
    rw [silent, Option.toList_none, List.append_nil]
    exact ⟨sent.congr (root ▸ same) names, has.congr child names (texts (by rw [child]))⟩
  rcases outcome with ⟨rfl, rfl⟩ | outcome
  · exact quiet rfl rfl rfl (by rw [at_root]; rfl)
  · obtain ⟨pc, holds, forks, caught, buffer⟩ := p
    cases pc with
    | fork =>
        simp only [Place] at here
        obtain ⟨-, rfl, rfl, -⟩ := here
        have first : [0] ∉ s.names := named.fresh [] _ 0 at_root (Nat.le_refl _)
        obtain ⟨rfl | rfl, rfl⟩ := outcome
        · have none : w = [] := sent.before (by rw [at_root]; rfl)
          have child : (s.entry [0]).buffer = [] := by rw [named.listed [0] first]; rfl
          have entry : (s.fork [] ⟨.fork, holds, 0, caught, []⟩ .childClose .close).entry [0] =
            .running ⟨.childClose, holds, 0, caught, []⟩ := State.fork_entry_child
          have texts := texts (by rw [entry, child]; rfl)
          rw [Has, named.listed [0] first] at has
          refine ⟨⟨fun _ => by rw [none]; rfl, fun _ => by rw [none]; rfl, fun unsent => ?_⟩, ?_⟩
          · rw [State.fork_entry_parent] at unsent
            cases unsent
          · rw [Has, entry, texts]
            exact has.1 first
        · have root : (s.goto [] ⟨.fork, holds, 0, caught, []⟩ (.exit 1)).entry [] =
            .running ⟨.exit 1, holds, 0, caught, []⟩ := State.set_entry_self
          have child := State.set_entry_of_ne (s := s) (List.cons_ne_nil 0 [])
            (x := .running ⟨Local.exit 1, holds, 0, caught, ([] : List Line)⟩)
          show Sent _ (w ++ []) ∧ Has (w ++ []) _ _ _
          rw [List.append_nil]
          refine ⟨⟨sent.alone, fun unsent => ?_, fun _ mem => absurd mem first⟩,
            has.congr child rfl (texts (congrArg _ child))⟩
          rw [root] at unsent
          cases unsent
    | close =>
        obtain ⟨rfl, rfl⟩ := outcome
        exact quiet rfl rfl rfl (by rw [at_root]; rfl)
    | waiting =>
        obtain ⟨rfl, rfl⟩ := outcome
        obtain ⟨buffer', entry⟩ := State.print_entry s tty []
          ⟨.waiting, holds, forks, caught, buffer⟩ .waiting true .sleep
        exact quiet rfl entry State.print_names (by rw [at_root]; rfl)
    | sleep | test =>
        obtain ⟨rfl, rfl⟩ := outcome
        exact quiet rfl rfl rfl (by rw [at_root]; rfl)
    | write b =>
        have none : w = [] := sent.before (by rw [at_root]; rfl)
        have mem : [0] ∈ s.names :=
          named.forked [] _ 0 at_root (by rw [here.2.1]; exact Nat.one_pos)
        subst none
        obtain ⟨later, q, at_child, running⟩ := has.write mem b
        obtain ⟨-, -, -, rfl, rfl⟩ | ⟨-, unread, -⟩ | ⟨unheld, -⟩ := outcome
        · have root := State.set_entry_self (s := s) (n := [])
            (x := .running ⟨Local.exit 0, holds, forks, caught, buffer⟩)
          have child := State.set_entry_of_ne (s := s) (List.cons_ne_nil 0 [])
            (x := .running ⟨Local.exit 0, holds, forks, caught, buffer⟩)
          refine ⟨⟨fun none => absurd mem none, fun now => ?_, fun _ _ => ⟨b, rfl⟩⟩,
            later.congr child rfl (texts (congrArg _ child))⟩
          cases (congrArg unsent root).symm.trans now
        · refine absurd ⟨[0], mem, ?_⟩ unread
          have child := child_here q at_child
          rw [at_child]
          obtain ⟨pc, holds, forks, caught, buffer⟩ := q
          cases pc with
          | childClose => exact child.2.2
          | loop i msg | reading msg | print msg => exact child.2.1
          | exit c => exact absurd rfl (running c)
          | _ => cases child.1
        · rw [here.2.2.2] at unheld
          cases unheld
    | exit c =>
        obtain ⟨rfl, rfl⟩ := outcome
        exact quiet (x := .zombie (.exited c)) rfl rfl rfl (by rw [at_root]; rfl)
    | _ => cases here.1

/-! ## The child -/

theorem padded_set {c : UInt8} (inside : r.length < 64) :
    (padded r).set r.length c = padded (r ++ [c]) := by
  have rest : 64 - r.length = 64 - (r ++ [c]).length + 1 := by
    rw [List.length_append, List.length_singleton]
    omega
  rw [padded, padded, rest, List.replicate_succ, List.set_append_right _ _ (Nat.le_refl _),
    Nat.sub_self]
  simp

theorem Sent.whole (sent : Sent s w) (mem : [0] ∈ s.names)
    (fifo : (w.map Prod.snd).flatten = r ++ s.data) :
    r ++ s.data = [] ∨ ∃ b, w = [([], mail b)] ∧ r ++ s.data = mail b := by
  cases now : unsent (s.entry []) with
  | true =>
      rw [sent.before now] at fifo
      exact .inl fifo.symm
  | false =>
      obtain ⟨b, rfl⟩ := sent.after now mem
      exact .inr ⟨b, rfl, by rw [← fifo]; simp⟩

theorem unsent_of_closed (closed : ¬ s.Held .writing) (named : Named s)
    (here : ∀ q, s.entry [] = .running q → Place [] q) : unsent (s.entry []) = false := by
  cases at_root : s.entry [] with
  | running q =>
      have unheld : q.holds .writing = false := by
        by_contra held
        refine closed ⟨[], named.mem at_root, ?_⟩
        rw [at_root]
        exact Bool.not_eq_false _ |>.mp held
      have place := here q at_root
      obtain ⟨pc, holds, forks, caught, buffer⟩ := q
      cases pc with
      | exit c => rfl
      | fork => exact nomatch (place.2.2.2 .writing).symm.trans unheld
      | close | waiting | sleep | test | write b => exact nomatch place.2.2.2.symm.trans unheld
      | _ => cases place.1
  | _ => rfl

theorem child_step {p : Proc Local Line} (step : Step main tty s e t a)
    (at_child : s.entry [0] = .running p) (own : e.name = [0]) (here : Place [0] p)
    (named : Named s) (parent_here : ∀ q, s.entry [] = .running q → Place [] q)
    (sent : Sent s w) (has : Has w r (printed s) s)
    (fifo : (w.map Prod.snd).flatten = r ++ s.data) :
    a.write? = none ∧ Sent t w ∧ Has w (r ++ a.read?.getD []) (printed t) t := by
  have outcome := step.outcome (own ▸ at_child)
  have root : t.entry [] = s.entry [] :=
    step.entry_of_ne (by rw [own]; exact nofun) fun k => (List.cons_ne_nil k _).symm
  rw [own] at outcome
  rw [Has, at_child] at has
  have moved {q : Proc Local Line} {r' : List UInt8} {texts : List (List UInt8)}
      (names : t.names = s.names) (entry : t.entry [0] = .running q) (said : printed t = texts)
      (later : q.pc.Has w r' texts) : Sent t w ∧ Has w r' (printed t) t := by
    refine ⟨sent.congr (congrArg _ root) names, ?_⟩
    rw [Has, entry, said]
    exact later
  rcases outcome with ⟨rfl, rfl⟩ | outcome
  · exact ⟨rfl, moved rfl State.set_entry_self (printed_congr (said_set at_child rfl))
      (by simpa [Answer.read?] using has)⟩
  · obtain ⟨pc, holds, forks, caught, buffer⟩ := p
    cases pc with
    | childClose =>
        obtain ⟨rfl, rfl⟩ := outcome
        obtain ⟨rfl, texts⟩ := has
        exact ⟨rfl, moved rfl State.set_entry_self (printed_congr (said_set at_child rfl))
          ⟨rfl, rfl, texts⟩⟩
    | loop i msg =>
        obtain ⟨rfl, rfl, texts⟩ := has
        have mem := named.mem at_child
        have whole := sent.whole mem fifo
        obtain ⟨-, more, after, answer⟩ | ⟨-, empty, closed, rfl, rfl⟩ | ⟨unheld, -⟩ := outcome
        · obtain ⟨c, rest, data⟩ := List.exists_cons_of_ne_nil more
          have inside : r.length < 64 := by
            rcases whole with none | ⟨b, -, all⟩
            · exact absurd (List.append_eq_nil_iff.mp none).2 more
            · have short := length_mail b
              rw [← all, data, List.length_append, List.length_cons] at short
              omega
          have first : s.data.take 1 = [c] := by rw [data]; rfl
          rw [first] at after answer
          subst answer
          have entry : t.entry [0] = .running ⟨.loop (r.length + 1) ((padded r).set r.length c),
              holds, forks, caught, buffer⟩ := by
            rw [after]
            simp [State.goto, stored]
          have said : t.said [0] = s.said [0] := by
            rw [after]
            exact said_set at_child rfl
          exact ⟨rfl, moved (by rw [after]; rfl) entry (printed_congr said)
            ⟨by simp [Answer.read?], padded_set inside, texts⟩⟩
        · obtain ⟨b, rfl⟩ := sent.after (unsent_of_closed closed named parent_here) mem
          rw [empty, List.append_nil] at fifo
          obtain rfl : mail b = r := by simpa using fifo
          exact ⟨rfl, moved rfl State.set_entry_self (printed_congr (said_set at_child rfl))
            ⟨b, rfl, rfl, texts⟩⟩
        · cases here.2.1.symm.trans unheld
    | reading msg =>
        obtain ⟨rfl, rfl⟩ := outcome
        obtain ⟨buffer', entry⟩ := State.print_entry s tty [0]
          ⟨.reading msg, holds, forks, caught, buffer⟩ .reading true (.print msg)
        obtain ⟨b, written, rfl, texts⟩ := has
        refine ⟨rfl, moved State.print_names ((congrFun entry [0]).trans State.set_entry_self)
          ((printed_print at_child).trans (List.append_nil _)) ⟨b, written, rfl, texts⟩⟩
    | print msg =>
        obtain ⟨rfl, rfl⟩ := outcome
        obtain ⟨buffer', entry⟩ := State.print_entry s tty [0]
          ⟨.print msg, holds, forks, caught, buffer⟩ (.read (cstring msg)) true (.exit 0)
        obtain ⟨b, written, rfl, texts⟩ := has
        refine ⟨rfl, moved State.print_names ((congrFun entry [0]).trans State.set_entry_self)
          (printed_print at_child) ⟨b, written, ?_⟩⟩
        rw [texts, cstring_padded]
        rfl
    | exit c =>
        obtain ⟨rfl, rfl⟩ := outcome
        have child : (s.exit [0] ⟨.exit c, holds, forks, caught, buffer⟩ c).entry [0] =
          .zombie (.exited c) :=
            State.set_entry_self (s := s) (n := [0]) (x := .zombie (.exited c))
        refine ⟨rfl, sent.congr (congrArg _ root) rfl, ?_⟩
        rw [Has, child, printed_congr (said_exit at_child c)]
        exact ⟨fun unlisted => absurd (named.mem at_child) unlisted, fun _ => has⟩
    | _ => cases here.1

theorem invariants {events : List Event} {answers : List Answer}
    (run : (system tty).exec (system tty).start events = some (s, answers)) :
    Sent s (writes answers) ∧ Has (writes answers) (reads answers).flatten (printed s) s := by
  apply Component.exec_answers (I := fun (s : State) answers =>
    Sent s (writes answers) ∧ Has (writes answers) (reads answers).flatten (printed s) s) run
  · refine ⟨⟨fun _ => rfl, fun _ => rfl, fun now => by cases now⟩, fun _ => ⟨rfl, rfl⟩,
      fun mem => ?_⟩
    cases List.mem_singleton.mp mem
  · rintro before s answers e t a - earlier ⟨sent, has⟩ next
    have reach : (system tty).Reachable s := ⟨before, answers, earlier⟩
    have step := step_cases next
    have fifo := fifo earlier
    obtain ⟨p, at_n⟩ := step.exists_running
    have here := place reach at_n
    rw [writes_concat, reads_concat, List.flatten_append]
    rcases here.name with own | own
    · rw [own] at at_n here
      have no_read : a.read? = none := step.read_eq_none (own ▸ at_n) here.no_read
      rw [no_read, Option.toList_none, List.flatten_nil, List.append_nil]
      exact parent_step step at_n own here (named reach) (fun q => place reach) sent has
    · rw [own] at at_n here
      obtain ⟨no_write, sent, has⟩ := child_step step at_n own here (named reach)
        (fun q => place reach) sent has fifo
      rw [no_write, Option.toList_none, List.append_nil]
      refine ⟨sent, ?_⟩
      cases read : a.read? with
      | none => simpa [read] using has
      | some bytes => simpa [read] using has

/-! ## What arrives -/

def Uncaught (n : Pid) (p : Proc Local Line) : Prop :=
  n = [] → p.caught = false ∧ ∀ b, p.pc = .write b → b = false

theorem uncaught_kept : Assertion.Kept Uncaught main := by
  intro n p uncaught
  obtain ⟨pc, holds, forks, caught, buffer⟩ := p
  cases pc with
  | fork =>
      exact ⟨fun root => ⟨(uncaught root).1, nofun⟩, nofun,
        fun root => ⟨(uncaught root).1, nofun⟩⟩
  | loop i msg =>
      refine fun r root => ⟨(uncaught root).1, fun b at_write => ?_⟩
      by_cases ended : r = some [] <;> simp [ended] at at_write
  | test =>
      refine fun root => ⟨(uncaught root).1, fun b at_write => ?_⟩
      cases at_write
      exact (uncaught root).1
  | exit c => trivial
  | reading msg | print msg | waiting =>
      exact ⟨fun root => ⟨(uncaught root).1, nofun⟩, fun _ root => ⟨(uncaught root).1, nofun⟩⟩
  | _ => exact fun root => ⟨(uncaught root).1, nofun⟩

theorem signal_of_secret {events : List Event} {answers : List Answer}
    (run : (system tty).exec (system tty).start events = some (s, answers))
    (quiet : .signal [] ∉ events) : ∀ x ∈ writes answers, x.2 = hello := by
  apply Component.exec_answers (I := fun (_ : State) answers =>
    ∀ x ∈ writes answers, x.2 = hello) run
  · exact nofun
  · rintro before s answers e t a within earlier same next
    rw [writes_concat]
    rcases (step_cases next).wrote with silent | ⟨n, p, bytes, l, at_n, call, -, rfl, -⟩
    · rwa [silent, Option.toList_none, List.append_nil]
    · have init : Assertion.On Uncaught (· = []) (system tty).start :=
        Assertion.On.init fun _ _ => ⟨rfl, fun _ at_write => nomatch at_write⟩
      have on : Assertion.On Uncaught (· = []) s := Assertion.On.exec uncaught_kept
        (fun n p mem root => absurd (within.subset (List.mem_append_left _ (root ▸ mem))) quiet)
        (fun n k eq => nomatch eq) init earlier
      have here := place ⟨before, answers, earlier⟩ at_n
      intro x mem
      rcases List.mem_append.mp mem with old | new
      · exact same x old
      · rw [List.mem_singleton.mp new]
        obtain ⟨pc, holds, forks, caught, buffer⟩ := p
        cases pc with
        | write b =>
            cases call
            obtain rfl := (on n _ here.1 at_n here.1).2 b rfl
            rfl
        | _ => cases call

/-- Whenever signals come, the child reads at places of its buffer only, and prints the text that
the parent has written, whole and once; that text is the secret one only if a signal came to the
parent. -/
theorem letter_arrives (tty : Bool) (events : List Event) (s : State) (answers : List Answer)
    (run : (system tty).exec (system tty).start events = some (s, answers)) :
    (∀ n p i msg, s.entry n = .running p → p.pc = .loop i msg → i < 64 ∧ msg.length = 64) ∧
      (printed s = [] ∨ ∃ b, writes answers = [([], mail b)] ∧ printed s = [mail b]) ∧
      ([0] ∈ s.names → (s.entry [0]).isRunning = false → printed s ≠ []) ∧
      (.signal [] ∉ events → ∀ x ∈ writes answers, x.2 = hello) := by
  have reach : (system tty).Reachable s := ⟨events, answers, run⟩
  obtain ⟨sent, has⟩ := invariants run
  refine ⟨fun n p i msg at_n at_loop => ?_, ?_, fun mem ended => ?_, signal_of_secret run⟩
  · have here := place reach at_n
    rw [Place, at_loop] at here
    obtain ⟨rfl, -⟩ := here
    rw [Has, at_n] at has
    simp only [at_loop, Local.Has] at has
    obtain ⟨rfl, rfl, -⟩ := has
    have short : (reads answers).flatten.length ≤ 42 := by
      rcases sent.whole ((named reach).mem at_n) (fifo run) with none | ⟨b, -, all⟩
      · simp [(List.append_eq_nil_iff.mp none).1]
      · have := length_mail b
        rw [← all, List.length_append] at this
        omega
    exact ⟨by omega, by rw [padded, List.length_append, List.length_replicate]; omega⟩
  · rw [Has] at has
    cases at_child : s.entry [0] with
    | running p =>
        rw [at_child] at has
        cases at_p : p.pc with
        | loop i msg => simp only [at_p, Local.Has] at has; exact .inl has.2.2
        | reading msg | print msg =>
            simp only [at_p, Local.Has] at has
            obtain ⟨-, -, -, none⟩ := has
            exact .inl none
        | exit c => simp only [at_p, Local.Has] at has; exact .inr has
        | _ => simp only [at_p, Local.Has] at has; exact .inl has.2
    | _ =>
        rw [at_child] at has
        by_cases mem : [0] ∈ s.names
        · exact .inr (has.2 mem)
        · exact .inl (has.1 mem).2
  · rw [Has] at has
    cases at_child : s.entry [0] with
    | running p => rw [at_child] at ended; cases ended
    | _ =>
        rw [at_child] at has
        obtain ⟨b, -, texts⟩ := has.2 mem
        rw [texts]
        exact List.cons_ne_nil _ _

def caughtInTime : List Event :=
  [.run [], .run [], .run [], .signal [], .run [], .run [], .run [], .run []] ++
    List.replicate 47 (.run [0])

theorem letter_arrives_secret : ∃ (s : State) (answers : List Answer), printed s = [secret] ∧
    (printed s = [] ∨ ∃ b, writes answers = [([], mail b)] ∧ printed s = [mail b]) := by
  have ends : ((system true).exec (system true).start caughtInTime).any
      (fun r => printed r.1 == [secret]) = true := by
    decide +kernel
  obtain ⟨⟨s, answers⟩, run, shown⟩ := (Option.any_eq_true _ _).mp ends
  exact ⟨s, answers, beq_iff_eq.mp shown, (letter_arrives _ _ _ _ run).2.1⟩

/-! ## The end -/

def Local.rank : Local → Nat
  | .fork => 54
  | .close => 48
  | .waiting => 47
  | .sleep => 46
  | .test => 45
  | .write _ => 44
  | .childClose => 5
  | .loop _ _ => 4
  | .reading _ => 3
  | .print _ => 2
  | .exit _ => 1

theorem rank_falls {p : Proc Local Line} (here : Place n p) : (main p.pc).Falls Local.rank 1 p := by
  obtain ⟨pc, holds, forks, caught, buffer⟩ := p
  cases pc with
  | fork => exact ⟨by simp [Local.rank], fun _ => by simp [Local.rank]⟩
  | loop i msg =>
      refine ⟨fun unheld => ?_, fun bytes => ?_⟩
      · exact nomatch here.2.1.symm.trans unheld
      · cases bytes <;> simp [Local.rank]
  | test =>
      intro b
      simp [Local.rank]
  | write b =>
      have := length_mail b
      simp only [main, Call.Falls, Local.rank]
      omega
  | _ => simp [main, Call.Falls, Local.rank]

theorem data_length {events : List Event} {answers : List Answer}
    (run : (system tty).exec (system tty).start events = some (s, answers)) :
    s.data.length ≤ 42 := by
  obtain ⟨sent, -⟩ := invariants run
  have fifo := fifo run
  by_cases mem : [0] ∈ s.names
  · rcases sent.whole mem fifo with none | ⟨b, -, all⟩
    · simp [(List.append_eq_nil_iff.mp none).2]
    · have := length_mail b
      rw [← all, List.length_append] at this
      omega
  · rw [sent.alone mem] at fifo
    simp [(List.append_eq_nil_iff.mp fifo.symm).2]

theorem parent_runs (reach : (system tty).Reachable s) (stuck : Stuck main tty s)
    {p : Proc Local Line} (at_root : s.entry [] = .running p) : False := by
  have here := place reach at_root
  cases stuck.blocked at_root with
  | read call => exact here.no_read _ _ call
  | write call holds full =>
      obtain ⟨events, answers, run⟩ := reach
      have few := data_length run
      obtain ⟨pc, holds, forks, caught, buffer⟩ := p
      cases pc with
      | write b =>
          cases call
          have := length_mail b
          simp only [capacity] at full
          omega
      | _ => cases call
  | wait call =>
      obtain ⟨pc, holds, forks, caught, buffer⟩ := p
      cases pc <;> cases call

theorem child_runs (reach : (system tty).Reachable s) (stuck : Stuck main tty s)
    {p : Proc Local Line} (at_child : s.entry [0] = .running p) : False := by
  have here := place reach at_child
  obtain ⟨pc, holds, forks, caught, buffer⟩ := p
  cases stuck.blocked at_child with
  | read call reading empty writer =>
      obtain ⟨m, -, held⟩ := writer
      cases at_m : s.entry m with
      | running q =>
          rcases (place reach at_m).name with rfl | rfl
          · exact parent_runs reach stuck at_m
          · obtain rfl := Entry.running.inj (at_m.symm.trans at_child)
            rw [at_m] at held
            cases pc with
            | loop i msg => exact nomatch here.2.2.symm.trans held
            | _ => cases call
      | _ => rw [at_m] at held; cases held
  | write call =>
      cases pc with
      | write b => cases here.1
      | _ => cases call
  | wait call => cases pc <;> cases call

/-- The child waits for the parent, which waits for nobody. -/
theorem letter_ends (tty : Bool) (events : List Event) (s : State) (answers : List Answer)
    (run : (system tty).exec (system tty).start events = some (s, answers)) :
    (events.filter fun e => !e.isSignal).length ≤ 54 ∧
      (Stuck main tty s → ∀ n, (s.entry n).isRunning = false) := by
  have reach : (system tty).Reachable s := ⟨events, answers, run⟩
  refine ⟨Nat.le_of_add_right_le (steps_bounded (fun s n p reach at_n =>
    rank_falls (place reach at_n)) run), fun stuck n => ?_⟩
  by_contra running
  cases at_n : s.entry n with
  | running p =>
      rcases (place reach at_n).name with rfl | rfl
      · exact parent_runs reach stuck at_n
      · exact child_runs reach stuck at_n
  | _ => rw [at_n] at running; exact running rfl

theorem letter_ends_secret : ∃ s : State, printed s = [secret] ∧
    (caughtInTime.filter fun e => !e.isSignal).length ≤ 54 ∧
      (Stuck main true s → ∀ n, (s.entry n).isRunning = false) := by
  have ends : ((system true).exec (system true).start caughtInTime).any
      (fun r => printed r.1 == [secret]) = true := by
    decide +kernel
  obtain ⟨⟨s, answers⟩, run, shown⟩ := (Option.any_eq_true _ _).mp ends
  exact ⟨s, beq_iff_eq.mp shown, letter_ends _ _ _ _ run⟩

end OsUnix.SecretLetter
