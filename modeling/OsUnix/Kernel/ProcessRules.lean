import OsUnix.Kernel.Processes
import Mathlib.Algebra.Order.BigOperators.Group.List
import Mathlib.Algebra.Order.Group.Nat
import Mathlib.Algebra.GroupWithZero.Nat

/-!
# Rules for processes

Assertions that every process keeps for itself, what the pipe hands over, and measures that every
call lowers.
-/

namespace OsUnix.Kernel.Processes

variable {L O : Type*} {code : L → Call L O} {tty pipe : Bool} {start : L} {s t : State L O}
  {n m : Pid} {p q : Proc L O} {e : Event} {a : Answer} {x : Entry L O} {l : L}

namespace State

@[simp] theorem set_entry_self : (s.set n x).entry n = x := Function.update_self ..

theorem set_entry_of_ne (other : m ≠ n) : (s.set n x).entry m = s.entry m :=
  Function.update_of_ne other ..

@[simp] theorem set_names : (s.set n x).names = s.names := rfl

@[simp] theorem set_data : (s.set n x).data = s.data := rfl

@[simp] theorem set_out : (s.set n x).out = s.out := rfl

theorem print_entry (s : State L O) (tty : Bool) (n : Pid) (p : Proc L O) (line : O)
    (newline : Bool) (l : L) : ∃ buffer, (s.print tty n p line newline l).entry =
      (s.set n (.running { p with pc := l, buffer })).entry := by
  rw [print]
  split
  · exact ⟨_, rfl⟩
  · exact ⟨_, rfl⟩

@[simp] theorem print_names {line : O} {newline : Bool} :
    (s.print tty n p line newline l).names = s.names := by
  rw [print]
  split <;> rfl

theorem child_ne (k : Nat) (n : Pid) : k :: n ≠ n := fun eq =>
  Nat.succ_ne_self n.length (congrArg List.length eq)

theorem fork_entry_child {child parent : L} : (s.fork n p child parent).entry (p.forks :: n) =
    .running { p with pc := child, forks := 0 } :=
  set_entry_self

theorem fork_entry_parent {child parent : L} : (s.fork n p child parent).entry n =
    .running { p with pc := parent, forks := p.forks + 1 } :=
  (set_entry_of_ne (child_ne _ _).symm).trans set_entry_self

theorem fork_entry_of_ne {child parent : L} (not_n : m ≠ n) (not_c : m ≠ p.forks :: n) :
    (s.fork n p child parent).entry m = s.entry m :=
  (set_entry_of_ne not_c).trans (set_entry_of_ne not_n)

end State

/-! ## Assertions of single processes -/

abbrev Assertion (L O : Type*) := Pid → Proc L O → Prop

def Assertion.On (Q : Assertion L O) (D : Pid → Prop) (s : State L O) : Prop :=
  ∀ n p, D n → s.entry n = .running p → Q n p

def Call.Keeps (Q : Assertion L O) (n : Pid) (p : Proc L O) : Call L O → Prop
  | .step l | .write _ l => Q n { p with pc := l }
  | .caught next => Q n { p with pc := next p.caught }
  | .fork child failed parent => Q n { p with pc := failed } ∧
      Q (p.forks :: n) { p with pc := child, forks := 0 } ∧
      Q n { p with pc := parent (p.forks :: n), forks := p.forks + 1 }
  | .print line _ l => Q n { p with pc := l, buffer := [] } ∧
      ∀ m, Q n { p with pc := l, buffer := p.buffer ++ [line n m] }
  | .close e l => Q n { p with pc := l, holds := Function.update p.holds e false }
  | .read _ next => ∀ r, Q n { p with pc := next r }
  | .wait next => ∀ r, Q n { p with pc := next r }
  | .exec program failed => Q n { p with pc := program, buffer := [] } ∧ Q n { p with pc := failed }
  | .image | .exit _ => True

def Assertion.Kept (Q : Assertion L O) (code : L → Call L O) : Prop :=
  ∀ n p, Q n p → (code p.pc).Keeps Q n p

def Assertion.Deaf (Q : Assertion L O) : Prop :=
  ∀ n p, Q n p → Q n { p with caught := true }

variable {Q : Assertion L O} {D : Pid → Prop}

theorem Assertion.On.set (on : Q.On D s) (own : ∀ p, D n → x = .running p → Q n p) :
    Q.On D (s.set n x) := by
  intro m q named at_m
  by_cases eq : m = n
  · subst eq
    rw [State.set_entry_self] at at_m
    exact own q named at_m
  · rw [State.set_entry_of_ne eq] at at_m
    exact on m q named at_m

theorem Assertion.On.running (on : Q.On D s) (own : D n → Q n p) :
    Q.On D (s.set n (.running p)) :=
  on.set fun _ named same => by cases same; exact own named

theorem Assertion.On.ended (on : Q.On D s) {status : Status} :
    Q.On D (s.set n (.zombie status)) :=
  on.set nofun

theorem Assertion.On.step (on : Q.On D s) (kept : Q.Kept code)
    (signal : ∀ n p, e = .signal n → D n → Q n p → Q n { p with caught := true })
    (forks : ∀ n p, s.entry n = .running p → D (p.forks :: n) → D n)
    (step : Step code tty s e t a) : Q.On D t := by
  have own {n : Pid} {p : Proc L O} {c : Call L O} (at_n : s.entry n = .running p)
      (call : code p.pc = c) (named : D n) : c.Keeps Q n p :=
    call ▸ kept n p (on n p named at_n)
  cases step with
  | step at_n call => exact on.running (own at_n call)
  | caught at_n call => exact on.running (own at_n call)
  | fork at_n call =>
      exact (on.running fun named => (own at_n call named).2.2).running fun named =>
        (own at_n call (forks _ _ at_n named)).2.1
  | print at_n call =>
      rw [State.print]
      split
      · exact on.running fun named => (own at_n call named).1
      · exact on.running fun named => (own at_n call named).2 _
  | close at_n call => exact on.running (own at_n call)
  | readData at_n call => exact on.running fun named => own at_n call named _
  | readEnd at_n call => exact on.running fun named => own at_n call named _
  | readFails at_n call => exact on.running fun named => own at_n call named _
  | write at_n call => exact on.running (own at_n call)
  | writeBroken at_n call => exact on.ended
  | writeFails at_n call => exact on.running (own at_n call)
  | waitNone at_n call => exact on.running fun named => own at_n call named _
  | exec at_n call => exact on.running fun named => (own at_n call named).1
  | exit at_n call => exact on.ended
  | forkFails at_n call => exact on.running fun named => (own at_n call named).1
  | execFails at_n call => exact on.running fun named => (own at_n call named).2
  | reap at_n call zombie => exact (on.running fun named => own at_n call named _).set nofun
  | ends at_n call => exact on.ended
  | signal at_n => exact on.running fun named => signal _ _ rfl named (on _ _ named at_n)

theorem Assertion.On.exec {events : List Event} {answers : List Answer} (kept : Q.Kept code)
    (deaf : ∀ n p, .signal n ∈ events → D n → Q n p → Q n { p with caught := true })
    (forks : ∀ n k, D (k :: n) → D n) (on : Q.On D s)
    (run : (system code tty pipe start).exec s events = some (t, answers)) : Q.On D t := by
  induction events generalizing s answers with
  | nil =>
      obtain ⟨rfl, -⟩ : s = t ∧ [] = answers := by simpa [Component.exec] using run
      exact on
  | cons e events ih =>
      obtain ⟨u, a, later, first, tail, -⟩ := Component.exec_eq_some.mp run
      refine ih (fun n p mem => deaf n p (List.mem_cons_of_mem e mem)) ?_ tail
      exact on.step kept (fun n p eq => deaf n p (eq ▸ List.mem_cons_self))
        (fun n _ _ => forks n _) (step_cases first)

theorem Assertion.On.init (first : D [] → Q [] ⟨start, fun _ => pipe, 0, false, []⟩) :
    Q.On D (system code tty pipe start).start := by
  intro n p named at_n
  simp only [system, State.start] at at_n
  split at at_n
  · rename_i root
    cases at_n
    exact root ▸ first (root ▸ named)
  · cases at_n

theorem each (reach : (system code tty pipe start).Reachable s) (kept : Q.Kept code)
    (deaf : Q.Deaf) (first : Q [] ⟨start, fun _ => pipe, 0, false, []⟩)
    (at_n : s.entry n = .running p) : Q n p := by
  obtain ⟨events, answers, run⟩ := reach
  have on : Q.On (fun _ => True) s := Assertion.On.exec kept (fun n p _ _ => deaf n p)
    (fun _ _ => id) (.init fun _ => first) run
  exact on n p trivial at_n

/-! ## Names -/

structure Named (s : State L O) : Prop where
  nodup : s.names.Nodup
  listed : ∀ n, n ∉ s.names → s.entry n = .absent
  parent : ∀ n k, k :: n ∈ s.names → n ∈ s.names
  fresh : ∀ n p k, s.entry n = .running p → p.forks ≤ k → k :: n ∉ s.names
  forked : ∀ n p k, s.entry n = .running p → k < p.forks → k :: n ∈ s.names

theorem Named.mem (named : Named s) (at_n : s.entry n = .running p) : n ∈ s.names := by
  by_contra unlisted
  rw [named.listed n unlisted] at at_n
  cases at_n

theorem Named.set (named : Named s) (at_n : s.entry n = .running p)
    (forks : ∀ q, x = .running q → q.forks = p.forks) (names : t.names = s.names)
    (entry : t.entry = (s.set n x).entry) : Named t := by
  obtain ⟨nodup, listed, parent, fresh, forked⟩ := named
  have before {m : Pid} {q : Proc L O} (at_m : t.entry m = .running q) :
      ∃ p, s.entry m = .running p ∧ q.forks = p.forks := by
    rw [entry] at at_m
    by_cases eq : m = n
    · subst eq
      rw [State.set_entry_self] at at_m
      exact ⟨p, at_n, forks q at_m⟩
    · rw [State.set_entry_of_ne eq] at at_m
      exact ⟨q, at_m, rfl⟩
  refine ⟨names ▸ nodup, fun m unlisted => ?_, names ▸ parent, fun m q k at_m beyond => ?_,
    fun m q k at_m within => ?_⟩
  · rw [names] at unlisted
    rw [entry, State.set_entry_of_ne, listed m unlisted]
    rintro rfl
    rw [listed m unlisted] at at_n
    cases at_n
  · obtain ⟨p, at_m, same⟩ := before at_m
    exact names ▸ fresh m p k at_m (same ▸ beyond)
  · obtain ⟨p, at_m, same⟩ := before at_m
    exact names ▸ forked m p k at_m (same ▸ within)

theorem Named.fork (named : Named s) (at_n : s.entry n = .running p) {child parent_pc : L} :
    Named (s.fork n p child parent_pc) := by
  have listed_n := named.mem at_n
  have unlisted_c := named.fresh n p p.forks at_n (Nat.le_refl _)
  obtain ⟨nodup, listed, parent, fresh, forked⟩ := named
  have mem_iff (m : Pid) : m ∈ (s.fork n p child parent_pc).names ↔
      m ∈ s.names ∨ m = p.forks :: n := by simp [State.fork]
  refine ⟨?_, fun m unlisted => ?_, fun m k mem => ?_, fun m q k at_m beyond mem => ?_,
    fun m q k at_m within => ?_⟩
  · refine List.nodup_append.mpr ⟨nodup, by simp, fun m mem c eq => ?_⟩
    rw [List.mem_singleton.mp eq]
    exact ne_of_mem_of_not_mem mem unlisted_c
  · rw [mem_iff, not_or] at unlisted
    obtain ⟨unlisted, not_c⟩ := unlisted
    have not_n : m ≠ n := (ne_of_mem_of_not_mem listed_n unlisted).symm
    rw [State.fork_entry_of_ne not_n not_c, listed m unlisted]
  · rw [mem_iff] at mem ⊢
    rcases mem with old | new
    · exact .inl (parent m k old)
    · obtain ⟨-, rfl⟩ := List.cons.inj new
      exact .inl listed_n
  · rw [mem_iff] at mem
    by_cases is_c : m = p.forks :: n
    · subst is_c
      rcases mem with old | new
      · exact unlisted_c (parent _ k old)
      · exact State.child_ne k _ new
    · by_cases is_n : m = n
      · subst is_n
        rw [State.fork_entry_parent] at at_m
        cases at_m
        rcases mem with old | new
        · exact fresh m p k at_n (Nat.le_of_succ_le beyond) old
        · have := (List.cons.inj new).1
          simp only at beyond
          omega
      · rw [State.fork_entry_of_ne is_n is_c] at at_m
        rcases mem with old | new
        · exact fresh m q k at_m beyond old
        · exact is_n (List.cons.inj new).2
  · rw [mem_iff]
    by_cases is_c : m = p.forks :: n
    · subst is_c
      rw [State.fork_entry_child] at at_m
      cases at_m
      cases within
    · by_cases is_n : m = n
      · subst is_n
        rw [State.fork_entry_parent] at at_m
        cases at_m
        rcases Nat.lt_succ_iff_lt_or_eq.mp within with old | new
        · exact .inl (forked m p k at_n old)
        · exact .inr (by rw [new])
      · rw [State.fork_entry_of_ne is_n is_c] at at_m
        exact .inl (forked m q k at_m within)

theorem Named.reaped (named : Named s) {status : Status} (zombie : s.entry n = .zombie status) :
    Named (s.set n .absent) := by
  obtain ⟨nodup, listed, parent, fresh, forked⟩ := named
  have before {m : Pid} {q : Proc L O} (at_m : (s.set n .absent).entry m = .running q) :
      s.entry m = .running q := by
    by_cases eq : m = n
    · subst eq
      rw [State.set_entry_self] at at_m
      cases at_m
    · rwa [State.set_entry_of_ne eq] at at_m
  refine ⟨nodup, fun m unlisted => ?_, parent, fun m q k at_m => fresh m q k (before at_m),
    fun m q k at_m => forked m q k (before at_m)⟩
  by_cases eq : m = n
  · rw [eq, State.set_entry_self]
  · rw [State.set_entry_of_ne eq, listed m unlisted]

inductive Shape (s t : State L O) : Prop
  | moved {n : Pid} {p q : Proc L O} (at_n : s.entry n = .running p) (names : t.names = s.names)
      (entry : t.entry = (s.set n (.running q)).entry) (forks : q.forks = p.forks)
      (holds : ∀ e, q.holds e = true → p.holds e = true)
  | ended {n : Pid} {p : Proc L O} {status : Status} (at_n : s.entry n = .running p)
      (names : t.names = s.names) (entry : t.entry = (s.set n (.zombie status)).entry)
  | fork {n : Pid} {p : Proc L O} {child parent : L} (at_n : s.entry n = .running p)
      (eq : t = s.fork n p child parent)
  | reap {n : Pid} {p : Proc L O} {k : Nat} {status : Status} {l : L}
      (at_n : s.entry n = .running p) (zombie : s.entry (k :: n) = .zombie status)
      (eq : t = (s.goto n p l).set (k :: n) .absent)

theorem Step.shape (step : Step code tty s e t a) : Shape s t := by
  cases step with
  | step at_n => exact .moved at_n rfl rfl rfl fun _ => id
  | caught at_n => exact .moved at_n rfl rfl rfl fun _ => id
  | fork at_n => exact .fork at_n rfl
  | print at_n =>
      rw [State.print]
      split
      · exact .moved at_n rfl rfl rfl fun _ => id
      · exact .moved at_n rfl rfl rfl fun _ => id
  | close at_n =>
      refine .moved at_n rfl rfl rfl fun e' held => ?_
      simp only [Function.update_apply] at held
      split at held
      · cases held
      · exact held
  | readData at_n => exact .moved at_n rfl rfl rfl fun _ => id
  | readEnd at_n => exact .moved at_n rfl rfl rfl fun _ => id
  | readFails at_n => exact .moved at_n rfl rfl rfl fun _ => id
  | write at_n => exact .moved at_n rfl rfl rfl fun _ => id
  | writeBroken at_n => exact .ended at_n rfl rfl
  | writeFails at_n => exact .moved at_n rfl rfl rfl fun _ => id
  | waitNone at_n => exact .moved at_n rfl rfl rfl fun _ => id
  | exec at_n => exact .moved at_n rfl rfl rfl fun _ => id
  | exit at_n => exact .ended at_n rfl rfl
  | forkFails at_n => exact .moved at_n rfl rfl rfl fun _ => id
  | execFails at_n => exact .moved at_n rfl rfl rfl fun _ => id
  | reap at_n call zombie => exact .reap at_n zombie rfl
  | ends at_n => exact .ended at_n rfl rfl
  | signal at_n => exact .moved at_n rfl rfl rfl fun _ => id

theorem Named.step (named : Named s) (shape : Shape s t) : Named t := by
  cases shape with
  | moved at_n names entry forks _ =>
      exact named.set at_n (fun _ eq => by cases eq; exact forks) names entry
  | ended at_n names entry => exact named.set (x := .zombie _) at_n nofun names entry
  | fork at_n eq => exact eq ▸ named.fork at_n
  | @reap n p k status l at_n zombie eq =>
      have moved : Named (s.goto n p l) := named.set at_n (fun _ eq => by cases eq; rfl) rfl rfl
      subst eq
      exact moved.reaped ((State.set_entry_of_ne (State.child_ne k n)).trans zombie)

theorem named (reach : (system code tty pipe start).Reachable s) : Named s := by
  apply reach.invariant (I := Named)
  · refine ⟨by simp [system, State.start], fun n unlisted => ?_, fun n k mem => ?_,
      fun n p k at_n beyond mem => ?_, fun n p k at_n within => ?_⟩
    · exact if_neg fun root => unlisted (List.mem_singleton.mpr root)
    · cases List.mem_singleton.mp mem
    · cases List.mem_singleton.mp mem
    · simp only [system, State.start] at at_n
      split at at_n <;> cases at_n
      cases within
  · exact fun named step => named.step (step_cases step).shape

/-! ## The ends of the pipe -/

theorem Shape.closed (shape : Shape s t) (named : Named s) {e : End} (closed : ¬ s.Held e) :
    ¬ t.Held e := by
  have unheld {n : Pid} {p : Proc L O} (at_n : s.entry n = .running p) : p.holds e = false := by
    by_contra held
    exact closed ⟨n, named.mem at_n, by rw [at_n]; exact Bool.not_eq_false _ |>.mp held⟩
  have others {m : Pid} (held : (s.entry m).holds e = true) : False := by
    cases at_m : s.entry m with
    | running q => rw [at_m, Entry.holds, unheld at_m] at held; cases held
    | _ => rw [at_m] at held; cases held
  rintro ⟨m, mem, held⟩
  cases shape with
  | @moved n p q at_n names entry forks holds =>
      rw [entry] at held
      by_cases eq : m = n
      · rw [eq, State.set_entry_self] at held
        have := holds e held
        rw [unheld at_n] at this
        cases this
      · rw [State.set_entry_of_ne eq] at held
        exact others held
  | @ended n p status at_n names entry =>
      rw [entry] at held
      by_cases eq : m = n
      · rw [eq, State.set_entry_self] at held
        cases held
      · rw [State.set_entry_of_ne eq] at held
        exact others held
  | @fork n p child parent at_n eq =>
      subst eq
      by_cases is_c : m = p.forks :: n
      · rw [is_c, State.fork_entry_child, Entry.holds, unheld at_n] at held
        cases held
      · by_cases is_n : m = n
        · rw [is_n, State.fork_entry_parent, Entry.holds, unheld at_n] at held
          cases held
        · rw [State.fork_entry_of_ne is_n is_c] at held
          exact others held
  | @reap n p k status l at_n zombie eq =>
      subst eq
      by_cases is_c : m = k :: n
      · rw [is_c, State.set_entry_self] at held
        cases held
      · rw [State.set_entry_of_ne is_c] at held
        by_cases is_n : m = n
        · rw [is_n, State.goto, State.set_entry_self, Entry.holds, unheld at_n] at held
          cases held
        · rw [State.goto, State.set_entry_of_ne is_n] at held
          exact others held

/-! ## Steps by their calls -/

def Event.name : Event → Pid
  | .run n | .fails n | .reap n _ | .ends n _ | .signal n => n

def Call.Outcome (tty : Bool) (s : State L O) (n : Pid) (p : Proc L O) (t : State L O)
    (a : Answer) : Call L O → Prop
  | .step l => t = s.goto n p l ∧ a = .silent
  | .caught next => t = s.goto n p (next p.caught) ∧ a = .silent
  | .fork child failed parent =>
      (t = s.fork n p child (parent (p.forks :: n)) ∨ t = s.goto n p failed) ∧ a = .silent
  | .print line newline l => t = s.print tty n p (line n (s.parent n)) newline l ∧ a = .silent
  | .close e l =>
      t = s.set n (.running { p with pc := l, holds := Function.update p.holds e false }) ∧
        a = .silent
  | .read k next =>
      (p.holds .reading = true ∧ s.data ≠ [] ∧
        t = { s.goto n p (next (some (s.data.take k))) with data := s.data.drop k } ∧
          a = .got n (s.data.take k)) ∨
      (p.holds .reading = true ∧ s.data = [] ∧ ¬ s.Held .writing ∧
        t = s.goto n p (next (some [])) ∧ a = .got n []) ∨
      (p.holds .reading = false ∧ t = s.goto n p (next none) ∧ a = .silent)
  | .write bytes l =>
      (p.holds .writing = true ∧ s.Held .reading ∧ s.data.length + bytes.length ≤ capacity ∧
        t = { s.goto n p l with data := s.data ++ bytes } ∧ a = .wrote n bytes) ∨
      (p.holds .writing = true ∧ ¬ s.Held .reading ∧ t = s.set n (.zombie (.signaled 13)) ∧
        a = .silent) ∨
      (p.holds .writing = false ∧ t = s.goto n p l ∧ a = .silent)
  | .wait next =>
      (s.hasChild n p.forks = false ∧ t = s.goto n p (next none) ∧ a = .silent) ∨
      ∃ k status, s.entry (k :: n) = .zombie status ∧
        t = (s.goto n p (next (some (k :: n, status)))).set (k :: n) .absent ∧ a = .silent
  | .exec program failed =>
      (t = s.set n (.running { p with pc := program, buffer := [] }) ∨ t = s.goto n p failed) ∧
        a = .silent
  | .image => ∃ status, t = s.set n (.zombie status) ∧ a = .silent
  | .exit c => t = s.exit n p c ∧ a = .silent

theorem Step.outcome (step : Step code tty s e t a) (at_n : s.entry e.name = .running p) :
    (t = s.set e.name (.running { p with caught := true }) ∧ a = .silent) ∨
      (code p.pc).Outcome tty s e.name p t a := by
  have same {n : Pid} {q : Proc L O} (at_q : s.entry n = .running q)
      (at_n : s.entry n = .running p) : q = p := Entry.running.inj (at_q.symm.trans at_n)
  cases step with
  | signal at_q =>
      obtain rfl := same at_q at_n
      exact .inl ⟨rfl, rfl⟩
  | readData at_q call holds data =>
      obtain rfl := same at_q at_n
      exact .inr (call ▸ .inl ⟨holds, data, rfl, rfl⟩)
  | readEnd at_q call holds data closed =>
      obtain rfl := same at_q at_n
      exact .inr (call ▸ .inr (.inl ⟨holds, data, closed, rfl, rfl⟩))
  | readFails at_q call holds =>
      obtain rfl := same at_q at_n
      exact .inr (call ▸ .inr (.inr ⟨holds, rfl, rfl⟩))
  | write at_q call holds reader room =>
      obtain rfl := same at_q at_n
      exact .inr (call ▸ .inl ⟨holds, reader, room, rfl, rfl⟩)
  | writeBroken at_q call holds closed =>
      obtain rfl := same at_q at_n
      exact .inr (call ▸ .inr (.inl ⟨holds, closed, rfl, rfl⟩))
  | writeFails at_q call holds =>
      obtain rfl := same at_q at_n
      exact .inr (call ▸ .inr (.inr ⟨holds, rfl, rfl⟩))
  | waitNone at_q call childless =>
      obtain rfl := same at_q at_n
      exact .inr (call ▸ .inl ⟨childless, rfl, rfl⟩)
  | reap at_q call zombie =>
      obtain rfl := same at_q at_n
      exact .inr (call ▸ .inr ⟨_, _, zombie, rfl, rfl⟩)
  | fork at_q call =>
      obtain rfl := same at_q at_n
      exact .inr (call ▸ ⟨.inl rfl, rfl⟩)
  | forkFails at_q call =>
      obtain rfl := same at_q at_n
      exact .inr (call ▸ ⟨.inr rfl, rfl⟩)
  | exec at_q call =>
      obtain rfl := same at_q at_n
      exact .inr (call ▸ ⟨.inl rfl, rfl⟩)
  | execFails at_q call =>
      obtain rfl := same at_q at_n
      exact .inr (call ▸ ⟨.inr rfl, rfl⟩)
  | ends at_q call =>
      obtain rfl := same at_q at_n
      exact .inr (call ▸ ⟨_, rfl, rfl⟩)
  | step at_q call | caught at_q call | print at_q call | close at_q call | exit at_q call =>
      obtain rfl := same at_q at_n
      exact .inr (call ▸ ⟨rfl, rfl⟩)

/-! ## What a step leaves alone -/

theorem Step.exists_running (step : Step code tty s e t a) :
    ∃ p, s.entry e.name = .running p := by
  cases step <;> exact ⟨_, ‹_›⟩

theorem Step.entry_of_ne (step : Step code tty s e t a) (other : m ≠ e.name)
    (no_child : ∀ k, m ≠ k :: e.name) : t.entry m = s.entry m := by
  cases step with
  | fork at_n call => exact State.fork_entry_of_ne other (no_child _)
  | print at_n call =>
      rw [State.print]
      split
      · exact State.set_entry_of_ne other
      · exact State.set_entry_of_ne other
  | reap at_n call zombie =>
      exact (State.set_entry_of_ne (no_child _)).trans (State.set_entry_of_ne other)
  | _ => exact State.set_entry_of_ne other

theorem Step.out_eq_append (step : Step code tty s e t a) (at_n : s.entry e.name = .running p) :
    ∃ lines, t.out = s.out ++ lines ∧ ∀ x ∈ lines, x ∈ p.buffer ∨ ∃ line newline l,
      code p.pc = .print line newline l ∧ x = line e.name (s.parent e.name) := by
  cases step with
  | @print n q line newline l at_q call =>
      obtain rfl := Entry.running.inj (at_q.symm.trans at_n)
      rw [State.print]
      split
      · refine ⟨q.buffer ++ [line n (s.parent n)], List.append_assoc .., fun x mem => ?_⟩
        refine (List.mem_append.mp mem).imp_right fun last => ?_
        exact ⟨line, newline, l, call, List.mem_singleton.mp last⟩
      · exact ⟨[], (List.append_nil _).symm, nofun⟩
  | @exit n q c at_q call =>
      obtain rfl := Entry.running.inj (at_q.symm.trans at_n)
      exact ⟨q.buffer, rfl, fun x mem => .inl mem⟩
  | _ => exact ⟨[], (List.append_nil _).symm, nofun⟩

theorem Step.out_eq (step : Step code tty s e t a) (at_n : s.entry e.name = .running p)
    (silent : ∀ line newline l, code p.pc ≠ .print line newline l) (empty : p.buffer = []) :
    t.out = s.out := by
  obtain ⟨lines, out, own⟩ := step.out_eq_append at_n
  suffices none : lines = [] by rw [out, none, List.append_nil]
  refine List.eq_nil_iff_forall_not_mem.mpr fun x mem => ?_
  rcases own x mem with kept | ⟨line, newline, l, call, -⟩
  · rw [empty] at kept
    cases kept
  · exact silent line newline l call

def Entry.buffer : Entry L O → List O
  | .running p => p.buffer
  | _ => []

def State.said (s : State L O) (n : Pid) : List O := s.out ++ (s.entry n).buffer

theorem said_congr (out : t.out = s.out) (entry : t.entry n = s.entry n) : t.said n = s.said n := by
  rw [State.said, State.said, out, entry]

theorem said_set (at_n : s.entry n = .running p) (buffer : x.buffer = p.buffer) :
    (s.set n x).said n = s.said n := by
  rw [State.said, State.said, State.set_entry_self, at_n, buffer]
  rfl

theorem said_print (at_n : s.entry n = .running p) {line : O} {newline : Bool} :
    (s.print tty n p line newline l).said n = s.said n ++ [line] := by
  rw [State.print]
  split
  · simp [State.said, at_n, Entry.buffer]
  · simp [State.said, at_n, Entry.buffer]

theorem said_exit (at_n : s.entry n = .running p) (c : Nat) :
    (s.exit n p c).said n = s.said n := by
  simp [State.said, State.exit, at_n, Entry.buffer]

/-! ## Messages -/

def Answer.write? : Answer → Option (Pid × List UInt8)
  | .wrote n bytes => some (n, bytes)
  | _ => none

def Answer.read? : Answer → Option (List UInt8)
  | .got _ (c :: bytes) => some (c :: bytes)
  | _ => none

def writes (answers : List Answer) : List (Pid × List UInt8) := answers.filterMap Answer.write?

def reads (answers : List Answer) : List (List UInt8) := answers.filterMap Answer.read?

theorem writes_concat (answers : List Answer) (a : Answer) :
    writes (answers ++ [a]) = writes answers ++ a.write?.toList := by
  rw [writes, writes, List.filterMap_append]
  cases a <;> rfl

theorem reads_concat (answers : List Answer) (a : Answer) :
    reads (answers ++ [a]) = reads answers ++ a.read?.toList := by
  rw [reads, reads, List.filterMap_append]
  cases h : a.read? <;> simp [h]

theorem Step.wrote (step : Step code tty s e t a) : a.write? = none ∨ ∃ n p bytes l,
    s.entry n = .running p ∧ code p.pc = .write bytes l ∧ p.holds .writing = true ∧
      a = .wrote n bytes ∧ t = { s.goto n p l with data := s.data ++ bytes } := by
  cases step with
  | @write n p bytes l at_n call holds =>
      exact .inr ⟨n, p, bytes, l, at_n, call, holds, rfl, rfl⟩
  | _ => exact .inl rfl

theorem Step.read_eq_none (step : Step code tty s e t a) (at_n : s.entry e.name = .running p)
    (no_read : ∀ k next, code p.pc ≠ .read k next) : a.read? = none := by
  cases step with
  | @readData n q k next at_q call =>
      obtain rfl := Entry.running.inj (at_q.symm.trans at_n)
      exact absurd call (no_read k next)
  | _ => rfl

theorem Shape.mem_names (shape : Shape s t) (mem : n ∈ s.names) : n ∈ t.names := by
  cases shape with
  | moved at_n names => exact names ▸ mem
  | ended at_n names => exact names ▸ mem
  | fork at_n eq => exact eq ▸ List.mem_append_left _ mem
  | reap at_n zombie eq => exact eq ▸ mem

theorem fifo {events : List Event} {answers : List Answer}
    (run : (system code tty pipe start).exec (system code tty pipe start).start events =
      some (s, answers)) :
    ((writes answers).map Prod.snd).flatten = (reads answers).flatten ++ s.data := by
  apply Component.exec_answers (I := fun (s : State L O) answers =>
    ((writes answers).map Prod.snd).flatten = (reads answers).flatten ++ s.data) run
  · rfl
  · intro _ s answers e t a _ _ inv step
    rw [writes_concat, reads_concat]
    have silent {u : State L O} (same : u.data = s.data) (no_write : a.write? = none)
        (no_read : a.read? = none) : ((writes answers ++ a.write?.toList).map Prod.snd).flatten =
          (reads answers ++ a.read?.toList).flatten ++ u.data := by
      rw [no_write, no_read, Option.toList_none, Option.toList_none, List.append_nil,
        List.append_nil, same, inv]
    cases step_cases step with
    | @readData n p k next at_n call holds some_data =>
        rw [← List.take_append_drop k s.data] at inv
        show _ = (reads answers ++ _).flatten ++ s.data.drop k
        cases first : s.data.take k with
        | nil => simpa [Answer.write?, Answer.read?, first] using inv
        | cons c bytes => simpa [Answer.write?, Answer.read?, first] using inv
    | @write n p bytes l at_n call =>
        show _ = _ ++ (s.data ++ bytes)
        simp [Answer.write?, Answer.read?, inv]
    | print =>
        rw [State.print]
        split
        · exact silent rfl rfl rfl
        · exact silent rfl rfl rfl
    | _ => exact silent rfl rfl rfl

def Sized (code : L → Call L O) (size : Nat) : Prop :=
  ∀ l, (∀ bytes l', code l = .write bytes l' → bytes.length = size) ∧
    ∀ k next, code l = .read k next → k = size

theorem messages {size : Nat} (sized : Sized code size) (positive : 0 < size)
    {events : List Event} {answers : List Answer}
    (run : (system code tty pipe start).exec (system code tty pipe start).start events =
      some (s, answers)) :
    ∃ pending, (writes answers).map Prod.snd = reads answers ++ pending ∧
      s.data = pending.flatten ∧ ∀ m ∈ pending, m.length = size := by
  apply Component.exec_answers (I := fun (s : State L O) answers => ∃ pending,
    (writes answers).map Prod.snd = reads answers ++ pending ∧
      s.data = pending.flatten ∧ ∀ m ∈ pending, m.length = size) run
  · exact ⟨[], rfl, rfl, nofun⟩
  · rintro _ s answers e t a - - ⟨pending, written, data, sizes⟩ step
    simp only [writes_concat, reads_concat]
    have silent {u : State L O} (same : u.data = s.data) (no_write : a.write? = none)
        (no_read : a.read? = none) :
        ∃ pending, (writes answers ++ a.write?.toList).map Prod.snd =
          (reads answers ++ a.read?.toList) ++ pending ∧
          u.data = pending.flatten ∧ ∀ m ∈ pending, m.length = size := by
      rw [no_write, no_read, Option.toList_none, Option.toList_none, List.append_nil,
        List.append_nil]
      exact ⟨pending, written, same.trans data, sizes⟩
    cases step_cases step with
    | @readData n p k next at_n call holds some_data =>
        obtain rfl := (sized p.pc).2 k next call
        cases pending with
        | nil => exact absurd data some_data
        | cons m pending =>
            have length := sizes m List.mem_cons_self
            rw [List.flatten_cons] at data
            have first : s.data.take k = m := by rw [data, List.take_left' length]
            refine ⟨pending, ?_, ?_, fun m' mem => sizes m' (List.mem_cons_of_mem m mem)⟩
            · rw [first]
              cases m with
              | nil => exact absurd length (Nat.ne_of_lt positive)
              | cons c m => simpa [Answer.write?, Answer.read?] using written
            · show s.data.drop k = _
              rw [data, List.drop_left' length]
    | @write n p bytes l at_n call =>
        refine ⟨pending ++ [bytes], ?_, ?_, fun m mem => ?_⟩
        · simp [Answer.write?, Answer.read?, written]
        · show s.data ++ bytes = _
          rw [data]
          simp
        · rcases List.mem_append.mp mem with old | new
          · exact sizes m old
          · rw [List.mem_singleton.mp new]
            exact (sized p.pc).1 bytes l call
    | print =>
        rw [State.print]
        split
        · exact silent rfl rfl rfl
        · exact silent rfl rfl rfl
    | _ => exact silent rfl rfl rfl

structure WritesOnce (code : L → Call L O) (After : L → Prop) : Prop where
  kept : Assertion.Kept (fun _ p => After p.pc) code
  write : ∀ l bytes l', code l = .write bytes l' → ¬ After l ∧ After l'

theorem writes_once {After : L → Prop} (once : WritesOnce code After) {events : List Event}
    {answers : List Answer}
    (run : (system code tty pipe start).exec (system code tty pipe start).start events =
      some (s, answers)) :
    ((writes answers).map Prod.fst).Nodup ∧
      ∀ n ∈ (writes answers).map Prod.fst, n ∈ s.names ∧
        ∀ p, s.entry n = .running p → After p.pc := by
  apply Component.exec_answers (I := fun (s : State L O) answers =>
    ((writes answers).map Prod.fst).Nodup ∧ ∀ n ∈ (writes answers).map Prod.fst,
      n ∈ s.names ∧ ∀ p, s.entry n = .running p → After p.pc) run
  · exact ⟨List.nodup_nil, nofun⟩
  · rintro ops s answers e t a - earlier ⟨nodup, after⟩ next
    have named : Named s := named ⟨ops, answers, earlier⟩
    have step := step_cases next
    have on := Assertion.On.step (D := (· ∈ (writes answers).map Prod.fst)) (s := s)
      (fun n p mem at_n => (after n mem).2 p at_n) once.kept (fun _ _ _ _ after => after)
      (fun n p at_n mem => absurd (after _ mem).1 (named.fresh n p p.forks at_n (Nat.le_refl _)))
      step
    have grows {n : Pid} (mem : n ∈ s.names) : n ∈ t.names := step.shape.mem_names mem
    rw [writes_concat]
    rcases step.wrote with silent | ⟨n, p, bytes, l, at_n, call, -, rfl, rfl⟩
    · rw [silent, Option.toList_none, List.append_nil]
      exact ⟨nodup, fun n mem => ⟨grows (after n mem).1, fun p at_n => on n p mem at_n⟩⟩
    · obtain ⟨before, behind⟩ := once.write p.pc bytes l call
      have first : n ∉ (writes answers).map Prod.fst := fun mem =>
        before ((after n mem).2 p at_n)
      simp only [Answer.write?, Option.toList_some, List.map_append, List.map_cons, List.map_nil]
      refine ⟨List.nodup_append.mpr ⟨nodup, by simp, fun m mem c eq => ?_⟩, fun m mem => ?_⟩
      · rw [List.mem_singleton.mp eq]
        exact ne_of_mem_of_not_mem mem first
      · rcases List.mem_append.mp mem with old | new
        · exact ⟨grows (after m old).1, fun q at_m => on m q old at_m⟩
        · obtain rfl := List.mem_singleton.mp new
          refine ⟨named.mem at_n, fun q at_m => ?_⟩
          have here : (s.goto m p l).entry m = .running q := at_m
          rw [State.goto, State.set_entry_self] at here
          cases here
          exact behind

/-! ## Measures -/

/-- The call lowers the rank of the process. A process may gain what it reads, and what it writes
counts for as much. -/
def Call.Falls (rank : L → Nat) (weight : Nat) (p : Proc L O) : Call L O → Prop
  | .step l | .print _ _ l | .close _ l => rank l < rank p.pc
  | .caught next => ∀ b, rank (next b) < rank p.pc
  | .fork child failed parent =>
      rank failed < rank p.pc ∧ ∀ c, rank child + rank (parent c) < rank p.pc
  | .read _ next => (p.holds .reading = false → rank (next none) < rank p.pc) ∧
      ∀ bytes, rank (next (some bytes)) < rank p.pc + weight * bytes.length
  | .write bytes l => rank l + weight * bytes.length < rank p.pc
  | .wait next => ∀ r, rank (next r) < rank p.pc
  | .exec program failed => rank program < rank p.pc ∧ rank failed < rank p.pc
  | .image | .exit _ => 0 < rank p.pc

def Entry.rank (rank : L → Nat) : Entry L O → Nat
  | .running p => rank p.pc
  | _ => 0

def State.rank (rank : L → Nat) (weight : Nat) (s : State L O) : Nat :=
  (s.names.map fun n => (s.entry n).rank rank).sum + weight * s.data.length

def Event.isSignal : Event → Bool
  | .signal _ => true
  | _ => false

theorem sum_update_of_not_mem {M : Type*} [AddCommMonoid M] (w : Pid → Entry L O → M)
    (f : Pid → Entry L O) {names : List Pid} (absent : n ∉ names) :
    (names.map fun m => w m (Function.update f n x m)).sum =
      (names.map fun m => w m (f m)).sum := by
  congr 1
  refine List.map_congr_left fun m mem => ?_
  rw [Function.update_of_ne (ne_of_mem_of_not_mem mem absent)]

theorem sum_update {M : Type*} [AddCommMonoid M] (w : Pid → Entry L O → M) (f : Pid → Entry L O)
    {names : List Pid} (nodup : names.Nodup) (mem : n ∈ names) :
    (names.map fun m => w m (Function.update f n x m)).sum + w n (f n) =
      (names.map fun m => w m (f m)).sum + w n x := by
  induction names with
  | nil => cases mem
  | cons m rest ih =>
      obtain ⟨absent, nodup⟩ := List.nodup_cons.mp nodup
      simp only [List.map_cons, List.sum_cons]
      by_cases eq : m = n
      · subst eq
        rw [Function.update_self, sum_update_of_not_mem w f absent, add_right_comm,
          add_right_comm (w m (f m)), add_comm (w m x)]
      · have later := ih nodup ((List.mem_cons.mp mem).resolve_left (Ne.symm eq))
        rw [Function.update_of_ne eq, add_assoc, later, add_assoc]

variable {rank : L → Nat} {weight : Nat}

theorem rank_set (rank : L → Nat) (weight : Nat) (named : Named s) (at_n : s.entry n = .running p) :
    (s.set n x).rank rank weight + rank p.pc = s.rank rank weight + x.rank rank := by
  have sums := sum_update (x := x) (fun _ => Entry.rank rank) s.entry named.nodup (named.mem at_n)
  rw [at_n] at sums
  simp only [State.rank, State.set, Entry.rank] at sums ⊢
  omega

theorem rank_lt_of_moved (named : Named s) (at_n : s.entry n = .running p)
    (names : t.names = s.names) (entry : t.entry = (s.set n x).entry)
    (less : x.rank rank + weight * t.data.length < rank p.pc + weight * s.data.length) :
    t.rank rank weight < s.rank rank weight := by
  have sums := rank_set (x := x) rank weight named at_n
  simp only [State.rank, names, entry, State.set_names, State.set_data] at sums ⊢
  omega

theorem rank_lt_of_fork (named : Named s) (at_n : s.entry n = .running p) {child parent : L}
    (less : rank child + rank parent < rank p.pc) :
    (s.fork n p child parent).rank rank weight < s.rank rank weight := by
  have unlisted := named.fresh n p p.forks at_n (Nat.le_refl _)
  have sums := rank_set (x := .running { p with pc := parent, forks := p.forks + 1 }) rank weight
    named at_n
  simp only [State.rank, State.fork, State.set, List.map_append, List.sum_append, List.map_cons,
    List.map_nil, List.sum_cons, List.sum_nil, Function.update_self] at sums ⊢
  rw [sum_update_of_not_mem (fun _ => Entry.rank rank) _ unlisted]
  simp only [Entry.rank] at sums ⊢
  omega

theorem rank_reaped {status : Status} (zombie : s.entry n = .zombie status) :
    (s.set n .absent).rank rank weight = s.rank rank weight := by
  have same (m : Pid) : ((s.set n .absent).entry m).rank rank = (s.entry m).rank rank := by
    by_cases eq : m = n
    · rw [eq, State.set_entry_self, zombie]
      rfl
    · rw [State.set_entry_of_ne eq]
  simp only [State.rank, same, State.set_names, State.set_data]

theorem rank_falls (named : Named s)
    (falls : ∀ n p, s.entry n = .running p → (code p.pc).Falls rank weight p)
    (step : Step code tty s e t a) (own : e.isSignal = false) :
    t.rank rank weight < s.rank rank weight := by
  have call_falls {n : Pid} {p : Proc L O} {c : Call L O} (at_n : s.entry n = .running p)
      (call : code p.pc = c) : c.Falls rank weight p := call ▸ falls n p at_n
  cases step with
  | step at_n call =>
      exact rank_lt_of_moved named at_n rfl rfl (Nat.add_lt_add_right (call_falls at_n call) _)
  | caught at_n call =>
      exact rank_lt_of_moved named at_n rfl rfl (Nat.add_lt_add_right (call_falls at_n call _) _)
  | fork at_n call => exact rank_lt_of_fork named at_n ((call_falls at_n call).2 _)
  | print at_n call =>
      rw [State.print]
      split
      · exact rank_lt_of_moved named at_n rfl rfl (Nat.add_lt_add_right (call_falls at_n call) _)
      · exact rank_lt_of_moved named at_n rfl rfl (Nat.add_lt_add_right (call_falls at_n call) _)
  | close at_n call =>
      exact rank_lt_of_moved named at_n rfl rfl (Nat.add_lt_add_right (call_falls at_n call) _)
  | @readData n p k next at_n call holds some_data =>
      refine rank_lt_of_moved named at_n rfl rfl ?_
      have less := (call_falls at_n call).2 (s.data.take k)
      have split : s.data.length = (s.data.take k).length + (s.data.drop k).length := by
        rw [← List.length_append, List.take_append_drop]
      rw [split, Nat.mul_add]
      simp only [Entry.rank] at less ⊢
      omega
  | readEnd at_n call =>
      exact rank_lt_of_moved named at_n rfl rfl
        (Nat.add_lt_add_right ((call_falls at_n call).2 []) _)
  | readFails at_n call holds =>
      exact rank_lt_of_moved named at_n rfl rfl
        (Nat.add_lt_add_right ((call_falls at_n call).1 holds) _)
  | @write n p bytes l at_n call =>
      refine rank_lt_of_moved named at_n rfl rfl ?_
      have less := call_falls at_n call
      simp only [Call.Falls, Entry.rank, List.length_append, Nat.mul_add] at less ⊢
      omega
  | writeBroken at_n call =>
      have less := call_falls at_n call
      exact rank_lt_of_moved (x := .zombie _) named at_n rfl rfl
        (Nat.add_lt_add_right (Nat.zero_lt_of_lt less) _)
  | writeFails at_n call =>
      have less := call_falls at_n call
      refine rank_lt_of_moved named at_n rfl rfl (Nat.add_lt_add_right ?_ _)
      simp only [Call.Falls, Entry.rank] at less ⊢
      omega
  | waitNone at_n call =>
      exact rank_lt_of_moved named at_n rfl rfl (Nat.add_lt_add_right (call_falls at_n call _) _)
  | exec at_n call =>
      exact rank_lt_of_moved named at_n rfl rfl (Nat.add_lt_add_right (call_falls at_n call).1 _)
  | exit at_n call =>
      exact rank_lt_of_moved (x := .zombie _) named at_n rfl rfl
        (Nat.add_lt_add_right (call_falls at_n call) _)
  | forkFails at_n call =>
      exact rank_lt_of_moved named at_n rfl rfl (Nat.add_lt_add_right (call_falls at_n call).1 _)
  | execFails at_n call =>
      exact rank_lt_of_moved named at_n rfl rfl (Nat.add_lt_add_right (call_falls at_n call).2 _)
  | @reap n p k status next at_n call zombie =>
      have child : (s.goto n p (next (some (k :: n, status)))).entry (k :: n) = .zombie status :=
        (State.set_entry_of_ne (State.child_ne k n)).trans zombie
      rw [rank_reaped child]
      exact rank_lt_of_moved named at_n rfl rfl (Nat.add_lt_add_right (call_falls at_n call _) _)
  | ends at_n call =>
      exact rank_lt_of_moved (x := .zombie _) named at_n rfl rfl
        (Nat.add_lt_add_right (call_falls at_n call) _)
  | signal at_n => cases own

theorem rank_signal (named : Named s) (step : Step code tty s e t a) (signal : e.isSignal = true) :
    t.rank rank weight = s.rank rank weight := by
  cases step with
  | @signal n p at_n =>
      have sums := rank_set (x := .running { p with caught := true }) rank weight named at_n
      exact Nat.add_right_cancel sums
  | _ => cases signal

theorem steps_bounded
    (falls : ∀ s n p, (system code tty pipe start).Reachable s → s.entry n = .running p →
      (code p.pc).Falls rank weight p) {events : List Event}
    {answers : List Answer}
    (run : (system code tty pipe start).exec (system code tty pipe start).start events =
      some (s, answers)) :
    (events.filter fun e => !e.isSignal).length + s.rank rank weight ≤ rank start := by
  suffices bound : ∀ {s t : State L O} {answers}, (system code tty pipe start).Reachable s →
      (system code tty pipe start).exec s events = some (t, answers) →
      (events.filter fun e => !e.isSignal).length + t.rank rank weight ≤ s.rank rank weight by
    simpa [system, State.start, State.rank, Entry.rank] using bound .start run
  clear run
  induction events with
  | nil =>
      intro s t answers _ run
      obtain ⟨rfl, -⟩ : s = t ∧ [] = answers := by simpa [Component.exec] using run
      simp
  | cons e events ih =>
      intro s t answers reach run
      obtain ⟨u, r, ps, first, tail, rfl⟩ := Component.exec_eq_some.mp run
      have one : (system code tty pipe start).exec s [e] = some (u, [r]) :=
        Component.exec_cons first rfl
      have later := ih (reach.exec one) tail
      have step := step_cases first
      by_cases signal : e.isSignal = true
      · rw [rank_signal (named reach) step signal] at later
        simpa [signal] using later
      · have own := Bool.not_eq_true _ |>.mp signal
        have less := rank_falls (named reach) (falls s · · reach) step own
        simp only [own, Bool.not_false, List.filter_cons_of_pos, List.length_cons]
        omega

theorem length_bounded
    (falls : ∀ s n p, (system code tty pipe start).Reachable s → s.entry n = .running p →
      (code p.pc).Falls rank weight p) {events : List Event} {answers : List Answer}
    (quiet : ∀ n, .signal n ∉ events)
    (run : (system code tty pipe start).exec (system code tty pipe start).start events =
      some (s, answers)) :
    events.length ≤ rank start := by
  have own : (events.filter fun e => !e.isSignal) = events := by
    refine List.filter_eq_self.mpr fun e mem => ?_
    cases e with
    | signal n => exact absurd mem (quiet n)
    | _ => rfl
  have bound := steps_bounded falls run
  rw [own] at bound
  exact Nat.le_of_add_right_le bound

/-! ## Blocked processes -/

/-- Nothing but a signal can happen. -/
def Stuck (code : L → Call L O) (tty : Bool) (s : State L O) : Prop :=
  ∀ e, e.isSignal = false → s.step code tty e = none

inductive Blocked (code : L → Call L O) (s : State L O) (n : Pid) (p : Proc L O) : Prop
  | read {k : Nat} {next : Option (List UInt8) → L} (call : code p.pc = .read k next)
      (holds : p.holds .reading = true) (empty : s.data = []) (writer : s.Held .writing)
  | write {bytes : List UInt8} {l : L} (call : code p.pc = .write bytes l)
      (holds : p.holds .writing = true) (full : capacity < s.data.length + bytes.length)
  | wait {next : Option (Pid × Status) → L} (call : code p.pc = .wait next)
      (child : s.hasChild n p.forks = true)
      (alive : ∀ k status, s.entry (k :: n) ≠ .zombie status)

theorem Stuck.blocked (stuck : Stuck code tty s) (at_n : s.entry n = .running p) :
    Blocked code s n p := by
  have own := stuck (.run n) rfl
  simp only [State.step, at_n] at own
  generalize call : code p.pc = c at own
  cases c with
  | read k next =>
      simp only [State.call] at own
      split at own
      · rename_i holds
        split at own
        · rename_i empty
          split at own
          · rename_i writer
            exact .read call holds empty writer
          · cases own
        · cases own
      · cases own
  | write bytes l =>
      simp only [State.call] at own
      split at own
      · rename_i holds
        split at own
        · split at own
          · cases own
          · rename_i full
            exact .write call holds (Nat.lt_of_not_le full)
        · cases own
      · cases own
  | wait next =>
      simp only [State.call] at own
      split at own
      · rename_i child
        refine .wait call child fun k status zombie => ?_
        have taken := stuck (.reap n k) rfl
        simp [State.step, at_n, zombie, call] at taken
      · cases own
  | image =>
      have ended := stuck (.ends n (.exited 0)) rfl
      simp [State.step, at_n, call] at ended
  | _ => cases own

theorem Stuck.ended (stuck : Stuck code tty s) (named : Named s)
    (no_read : ∀ n p k next, s.entry n = .running p → code p.pc ≠ .read k next)
    (no_write : ∀ n p bytes l, s.entry n = .running p → code p.pc ≠ .write bytes l) (n : Pid) :
    (s.entry n).isRunning = false := by
  by_contra running
  have deeper (m : Pid) (alive : (s.entry m).isRunning = true) :
      ∃ k, (s.entry (k :: m)).isRunning = true := by
    cases at_m : s.entry m with
    | running p =>
        cases stuck.blocked at_m with
        | read call => exact absurd call (no_read m p _ _ at_m)
        | write call => exact absurd call (no_write m p _ _ at_m)
        | wait call child alive =>
            obtain ⟨k, -, present⟩ := List.any_eq_true.mp child
            refine ⟨k, ?_⟩
            cases at_k : s.entry (k :: m) with
            | absent => rw [at_k] at present; cases present
            | running q => rfl
            | zombie status => exact absurd at_k (alive k status)
    | _ => rw [at_m] at alive; cases alive
  have endless (i : Nat) : ∃ m : Pid, m.length = n.length + i ∧
      (s.entry m).isRunning = true := by
    induction i with
    | zero => exact ⟨n, rfl, Bool.not_eq_false _ |>.mp running⟩
    | succ i ih =>
        obtain ⟨m, length, alive⟩ := ih
        obtain ⟨k, alive⟩ := deeper m alive
        exact ⟨k :: m, congrArg Nat.succ length, alive⟩
  obtain ⟨m, length, alive⟩ := endless ((s.names.map List.length).sum + 1)
  cases at_m : s.entry m with
  | running p =>
      have bound := List.single_le_sum (fun _ _ => Nat.zero_le _) _
        (List.mem_map_of_mem (named.mem at_m) : m.length ∈ s.names.map List.length)
      omega
  | _ => rw [at_m] at alive; cases alive

end OsUnix.Kernel.Processes
