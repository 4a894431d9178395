import OsUnix.Concurrency.System

/-!
# Win32 mutexes and events

A wait is one step, enabled when the object is signalled. A mutex is recursive for its owner. An
auto-reset event is consumed by the wait that it satisfies.
-/

namespace OsUnix.Concurrency

theorem exists_of_wait {α β γ : Type*} {waits : Option α} {f : α → β} {g : β → γ} {r : γ}
    (h : (waits.map f).map g = some r) : ∃ a, waits = some a ∧ g (f a) = r := by
  rw [Option.map_map] at h
  exact Option.map_eq_some_iff.mp h

structure Event where
  manualReset : Bool
  signalled : Bool
deriving DecidableEq, Repr

namespace Event

def set (e : Event) : Event := { e with signalled := true }

def reset (e : Event) : Event := { e with signalled := false }

def wait (e : Event) : Option Event :=
  if e.signalled then some { e with signalled := e.manualReset } else none

theorem wait_eq_some {e e' : Event} :
    e.wait = some e' ↔ e.signalled = true ∧ e' = { e with signalled := e.manualReset } := by
  unfold wait
  split
  · rename_i signalled
    simp only [Option.some.injEq, signalled, true_and]
    exact eq_comm
  · rename_i unsignalled
    simp [unsignalled]

theorem wait_manual {e e' : Event} (manual : e.manualReset = true) (h : e.wait = some e') :
    e' = e := by
  obtain ⟨signalled, rfl⟩ := wait_eq_some.mp h
  cases e
  simp_all

variable {ι L : Type*}

def Tracks (e : Event) (p : L → Bool) (f : ι → L) : Prop :=
  e.signalled = true ↔ ∀ i, p (f i) = false

variable {e : Event} {p : L → Bool} {f : ι → L} {i : ι} {l : L} [DecidableEq ι]

theorem Tracks.close (inside : p l = true) : e.reset.Tracks p (Function.update f i l) := by
  constructor
  · intro signalled
    cases signalled
  · intro none
    have here := none i
    rw [Function.update_self, inside] at here
    cases here

theorem Tracks.stay (h : e.Tracks p f) (same : p l = p (f i)) :
    e.Tracks p (Function.update f i l) := by
  refine Iff.trans h (forall_congr' fun j => ?_)
  by_cases eq : j = i
  · subst eq
    rw [Function.update_self, same]
  · rw [Function.update_of_ne eq]

theorem Tracks.leave (h : e.Tracks p f) (inside : p (f i) = true)
    (others : ∃ j, p (Function.update f i l j) = true) : e.Tracks p (Function.update f i l) := by
  obtain ⟨j, still⟩ := others
  constructor
  · intro signalled
    rw [h.mp signalled i] at inside
    cases inside
  · intro none
    rw [none j] at still
    cases still

theorem Tracks.open (none : ∀ j, p (Function.update f i l j) = false) :
    e.set.Tracks p (Function.update f i l) :=
  ⟨fun _ => none, fun _ => rfl⟩

end Event

structure Mutex (ι : Type*) where
  owner : Option (ι × Nat)
deriving DecidableEq, Repr

namespace Mutex
variable {ι L : Type*}

def free : Mutex ι := ⟨none⟩

structure Guards (m : Mutex ι) (held : L → Bool) (f : ι → L) : Prop where
  owner_iff : ∀ i, held (f i) = true ↔ m.owner = some (i, 1)
  owner_cases : m.owner = none ∨ ∃ i, m.owner = some (i, 1)

variable {m m' : Mutex ι} {held : L → Bool} {f : ι → L} {i j : ι} {l : L}

theorem Guards.start (none_held : ∀ i, held (f i) = false) : Guards free held f := by
  refine ⟨fun i => ?_, Or.inl rfl⟩
  simp [none_held, free]

theorem Guards.unique (h : Guards m held f) (hi : held (f i) = true) (hj : held (f j) = true) :
    i = j := by
  have eq := (h.owner_iff i).mp hi
  rw [(h.owner_iff j).mp hj] at eq
  simp only [Option.some.injEq, Prod.mk.injEq, and_true] at eq
  exact eq.symm

theorem Guards.eq_of_held (h : Guards m held f) (hi : held (f i) = true) :
    m = ⟨some (i, 1)⟩ := by
  cases m
  congr
  exact (h.owner_iff i).mp hi

theorem Guards.free_iff (h : Guards m held f) : m.owner = none ↔ ∀ i, held (f i) = false := by
  constructor
  · intro no_owner i
    rw [← Bool.not_eq_true, h.owner_iff, no_owner]
    simp
  · intro none_held
    rcases h.owner_cases with no_owner | ⟨i, owner⟩
    · exact no_owner
    · exact absurd ((h.owner_iff i).mpr owner) (by simp [none_held i])

variable [DecidableEq ι]

def wait (m : Mutex ι) (i : ι) : Option (Mutex ι) :=
  match m.owner with
  | none => some ⟨some (i, 1)⟩
  | some (j, depth) => if j = i then some ⟨some (i, depth + 1)⟩ else none

/-- A thread that is not the owner cannot release: the call fails and changes nothing. -/
def release (m : Mutex ι) (i : ι) : Mutex ι :=
  match m.owner with
  | none => m
  | some (j, depth) =>
      if j = i then if depth = 1 then ⟨none⟩ else ⟨some (i, depth - 1)⟩ else m

@[simp] theorem release_owner (i : ι) : (⟨some (i, 1)⟩ : Mutex ι).release i = ⟨none⟩ := by
  simp [release]

theorem Guards.free_of_wait (h : Guards m held f) (outside : held (f i) = false)
    (took : m.wait i = some m') : m.owner = none ∧ m' = ⟨some (i, 1)⟩ := by
  rcases h.owner_cases with no_owner | ⟨j, owner⟩
  · simp only [wait, no_owner, Option.some.injEq] at took
    exact ⟨no_owner, took.symm⟩
  · have ne : j ≠ i := by
      rintro rfl
      rw [(h.owner_iff j).mpr owner] at outside
      cases outside
    simp [wait, owner, ne] at took

theorem Guards.take (h : Guards m held f) (outside : held (f i) = false)
    (took : m.wait i = some m') (inside : held l = true) :
    Guards m' held (Function.update f i l) := by
  obtain ⟨no_owner, rfl⟩ := h.free_of_wait outside took
  refine ⟨fun j => ?_, Or.inr ⟨i, rfl⟩⟩
  by_cases eq : j = i
  · subst eq
    simp [inside]
  · simp only [ne_eq, eq, not_false_eq_true, Function.update_of_ne, h.free_iff.mp no_owner j,
      Bool.false_eq_true, Option.some.injEq, Prod.mk.injEq, and_true, false_iff]
    exact fun eq' => eq eq'.symm

theorem Guards.leave (h : Guards m held f) (inside : held (f i) = true) (outside : held l = false) :
    Guards (m.release i) held (Function.update f i l) := by
  rw [h.eq_of_held inside, release_owner]
  refine ⟨fun j => ?_, Or.inl rfl⟩
  by_cases eq : j = i
  · subst eq
    simp [outside]
  · have : held (f j) = false := by
      rw [← Bool.not_eq_true]
      exact fun hj => eq (h.unique hj inside)
    simp [eq, this]

theorem Guards.stay (h : Guards m held f) (same : held l = held (f i)) :
    Guards m held (Function.update f i l) := by
  refine ⟨fun j => ?_, h.owner_cases⟩
  by_cases eq : j = i
  · subst eq
    simpa [same] using h.owner_iff j
  · simpa [eq] using h.owner_iff j

theorem Guards.protect {q : L → Bool} {P P' : Prop} (h : Guards m held f)
    (within : ∀ l, q l = true → held l = true) (found : ∀ j, q (f j) = true → P)
    (own : q l = true → P') (others : held (f i) = false → P → P') :
    ∀ j, q (Function.update f i l j) = true → P' := by
  intro j at_j
  by_cases eq : j = i
  · subst eq
    exact own (by simpa using at_j)
  · rw [Function.update_of_ne eq] at at_j
    refine others ?_ (found j at_j)
    rw [← Bool.not_eq_true]
    exact fun held_i => eq (h.unique (within _ at_j) held_i)

end Mutex

end OsUnix.Concurrency
