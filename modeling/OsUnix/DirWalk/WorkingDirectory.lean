import OsUnix.DirWalk.Model

/-!
# The working directory around a call of dopath
-/

namespace OsUnix.DirWalk
open Kernel

def Restored : Event → Prop
  | .returned _ called cwd _ => cwd = called
  | .lookup _ _ source cwd => ∀ location ∈ source, cwd = location
  | .listing .. => True

def OnlyDots (names : List Filename) : Prop := ∀ name ∈ names, name = dot ∨ name = dotdot

section walk

variable {σ : Type} (fs : FileSystem) (fails : Failures) (func : Handler σ)

/-- `chdir(filename)` enters the directory that is listed, unless it is empty, and `chdir("..")`
leads back from there. -/
def RoundTrip : Event → Prop
  | .listing filename called location names entering =>
      moved fs fails entering filename called = location ∨ OnlyDots names
  | .returned filename called _ (some (entering, leaving)) =>
      moved fs fails leaving dotdot (moved fs fails entering filename called) = called
  | .returned _ _ _ none => True
  | .lookup .. => True

def Lists (filename : Filename) (cwd location : Location) (names : List Filename) : Prop :=
  (fs.target cwd filename).kind = some .dir ∧
    ∃ entries : Entries, fs.opened cwd filename = some (location, entries) ∧ entries.names = names

inductive Outcome (fuel : Nat) (source : Option Location) (filename : Filename) (depth : Nat)
    (w : World σ) : Option Int × World σ → Prop
  | unlisted {ret : Int} {w' : World σ} (cwd : w'.cwd = w.cwd)
      (log : w'.log = w.log ++
        [.lookup filename depth source w.cwd, .returned filename w.cwd w.cwd none]) :
      Outcome fuel source filename depth w (some ret, w')
  | running {location : Location} {names : List Filename} {entering : Nat} {w₁ w₂ : World σ}
      (lists : Lists fs filename w.cwd location names)
      (cwd : w₁.cwd = moved fs fails entering filename w.cwd)
      (log : w₁.log = w.log ++
        [.lookup filename depth source w.cwd, .listing filename w.cwd location names entering])
      (read : readEntries
        (fun name w => dopath fs fails func fuel (some location) name (depth + 1) w)
        names 0 w₁ = (none, w₂)) :
      Outcome fuel source filename depth w (none, w₂)
  | listed {location : Location} {names : List Filename} {entering : Nat} {w₁ w₂ w' : World σ}
      {ret : Int} (lists : Lists fs filename w.cwd location names)
      (cwd : w₁.cwd = moved fs fails entering filename w.cwd)
      (log : w₁.log = w.log ++
        [.lookup filename depth source w.cwd, .listing filename w.cwd location names entering])
      (read : readEntries
        (fun name w => dopath fs fails func fuel (some location) name (depth + 1) w)
        names 0 w₁ = (some ret, w₂))
      (cwd' : w'.cwd = moved fs fails w₂.now dotdot w₂.cwd)
      (log' : w'.log = w₂.log ++ [.returned filename w.cwd w'.cwd (some (entering, w₂.now))]) :
      Outcome fuel source filename depth w (some ret, w')

section effects

variable {filename : Filename} {w w' : World σ}

theorem lstat_effect {stat : Option Kind} (done : lstat fs fails filename w = (stat, w')) :
    w'.cwd = w.cwd ∧ w'.log = w.log := by
  cases done
  exact ⟨rfl, rfl⟩

theorem kind_of_lstat {mode : Kind} (done : lstat fs fails filename w = (some mode, w')) :
    (fs.target w.cwd filename).kind = some mode := by
  obtain ⟨answer, _⟩ := Prod.mk.inj done
  split at answer
  · cases answer
  · exact answer

theorem callFunc_effect {stat : Option Kind} {type : FtwType} {ret : Int}
    (done : callFunc func filename stat type w = (ret, w')) :
    w'.cwd = w.cwd ∧ w'.log = w.log := by
  cases done
  exact ⟨rfl, rfl⟩

theorem opendir_effect {dir : Option (Location × List Filename)}
    (done : opendir fs fails filename w = (dir, w')) : w'.cwd = w.cwd ∧ w'.log = w.log := by
  cases done
  exact ⟨rfl, rfl⟩

theorem opened_of_opendir {location : Location} {names : List Filename}
    (done : opendir fs fails filename w = (some (location, names), w')) :
    ∃ entries : Entries, fs.opened w.cwd filename = some (location, entries) ∧
      entries.names = names := by
  obtain ⟨answer, _⟩ := Prod.mk.inj done
  split at answer
  · cases answer
  · obtain ⟨⟨location', entries⟩, opened, eq⟩ := Option.map_eq_some_iff.mp answer
    cases eq
    exact ⟨entries, opened, rfl⟩

end effects

theorem dopath_outcome (fuel : Nat) (source : Option Location) (filename : Filename) (depth : Nat)
    (w : World σ) : Outcome fs fails func fuel source filename depth w
      (dopath fs fails func (fuel + 1) source filename depth w) := by
  let begun := w.record (.lookup filename depth source w.cwd)
  -- a return without a listing, from a world `w'` like the first one
  have returns (w' : World σ) (ret : Int) (same : w'.cwd = w.cwd ∧ w'.log = begun.log) :
      Outcome fs fails func fuel source filename depth w
        (leave filename w.cwd none (ret, w')) := by
    refine .unlisted same.1 ?_
    dsimp only [World.record]
    rw [same.1, same.2]
    exact List.append_assoc ..
  rw [dopath]
  rcases stat : lstat fs fails filename begun with ⟨_ | mode, w₀⟩
  · have looked := lstat_effect fs fails stat
    exact returns _ _ looked
  · have looked := lstat_effect fs fails stat
    dsimp only
    split
    · exact returns _ _ looked
    · have is_dir : mode = .dir := by simpa using ‹¬mode ≠ .dir›
      have kind := kind_of_lstat fs fails stat
      subst is_dir
      rcases shown : callFunc func filename (some .dir) .d { w₀ with out := w₀.out ++ indent depth }
        with ⟨ret, w₁⟩
      have called := callFunc_effect func shown
      dsimp only
      split
      · exact returns _ _ ⟨called.1.trans looked.1, called.2.trans looked.2⟩
      · rcases opening : opendir fs fails filename w₁ with ⟨_ | ⟨location, names⟩, w₂⟩
        · have opened := opendir_effect fs fails opening
          exact returns _ _
            ⟨(opened.1.trans called.1).trans looked.1, (opened.2.trans called.2).trans looked.2⟩
        · have opened := opendir_effect fs fails opening
          have accepted : ret = 0 := by simpa using ‹¬ret ≠ 0›
          have same : w₂.cwd = w.cwd := (opened.1.trans called.1).trans looked.1
          let listing := w₂.record (.listing filename w.cwd location names w₂.now)
          have cwd : (chdir fs fails filename listing).cwd = moved fs fails w₂.now filename w.cwd :=
            congrArg (moved fs fails w₂.now filename) same
          have log : (chdir fs fails filename listing).log = w.log ++
              [.lookup filename depth source w.cwd,
                .listing filename w.cwd location names w₂.now] := by
            have before : w₂.log = begun.log := (opened.2.trans called.2).trans looked.2
            show w₂.log ++ _ = _
            rw [before]
            exact List.append_assoc ..
          have lists : Lists fs filename w.cwd location names := by
            obtain ⟨entries, opened, names⟩ := opened_of_opendir fs fails opening
            rw [called.1, looked.1] at opened
            exact ⟨kind, entries, opened, names⟩
          subst accepted
          dsimp only
          split
          · exact .running lists cwd log ‹_›
          · exact .listed lists cwd log ‹_› rfl rfl

structure Walked (source : Option Location) (w : World σ) (result : Option Int × World σ)
    (new : List Event) : Prop where
  log : result.2.log = w.log ++ new
  restored : (∀ event ∈ new, Restored event) → (∀ event ∈ new, RoundTrip fs fails event) ∧
    (∀ location ∈ source, w.cwd = location) ∧ (result.1.isSome → result.2.cwd = w.cwd)
  roundTrip : (∀ location ∈ source, w.cwd = location) →
    (∀ event ∈ new, RoundTrip fs fails event) → (∀ event ∈ new, Restored event) ∧
      (result.1.isSome → result.2.cwd = w.cwd)

structure WalkedEntries (location : Location) (names : List Filename) (ret : Int) (w : World σ)
    (result : Option Int × World σ) (new : List Event) : Prop where
  log : result.2.log = w.log ++ new
  restored : (∀ event ∈ new, Restored event) → (∀ event ∈ new, RoundTrip fs fails event) ∧
    (ret = 0 → w.cwd = location ∨ OnlyDots names) ∧ (result.1.isSome → result.2.cwd = w.cwd)
  roundTrip : (w.cwd = location ∨ OnlyDots names) →
    (∀ event ∈ new, RoundTrip fs fails event) → (∀ event ∈ new, Restored event) ∧
      (result.1.isSome → result.2.cwd = w.cwd)

theorem forall_pair {P : Event → Prop} (lookup event : Event) :
    (∀ e ∈ [lookup, event], P e) ↔ P lookup ∧ P event := by
  rw [List.forall_mem_cons, List.forall_mem_singleton]

theorem not_returned {P : Prop} (w : World σ)
    (returned : ((none, w) : Option Int × World σ).1.isSome) : P :=
  Bool.noConfusion returned

theorem WalkedEntries.stop {location : Location} {names : List Filename} {ret : Int}
    {w w' : World σ} {new : List Event}
    (here : Walked fs fails (some location) w (none, w') new)
    (found : w.cwd = location ∨ OnlyDots names → w.cwd = location) :
    WalkedEntries fs fails location names ret w (none, w') new where
  log := here.log
  restored all := by
    obtain ⟨trips, source, _⟩ := here.restored all
    exact ⟨trips, fun _ => Or.inl (source location rfl), not_returned _⟩
  roundTrip known all := by
    have source : ∀ l ∈ some location, w.cwd = l := fun l mem =>
      (found known).trans (Option.some.inj mem)
    exact ⟨(here.roundTrip source all).1, not_returned _⟩

theorem WalkedEntries.cons {location : Location} {names rest : List Filename} {ret ret' : Int}
    {w w' : World σ} {result : Option Int × World σ} {first new : List Event}
    (here : Walked fs fails (some location) w (some ret', w') first)
    (later : WalkedEntries fs fails location rest ret' w' result new)
    (found : w.cwd = location ∨ OnlyDots names → w.cwd = location) :
    WalkedEntries fs fails location names ret w result (first ++ new) where
  log := by rw [later.log, here.log, List.append_assoc]
  restored := by
    rw [List.forall_mem_append, List.forall_mem_append]
    rintro ⟨before, after⟩
    obtain ⟨trips, source, back⟩ := here.restored before
    obtain ⟨trips', _, back'⟩ := later.restored after
    exact ⟨⟨trips, trips'⟩, fun _ => Or.inl (source location rfl),
      fun returned => (back' returned).trans (back rfl)⟩
  roundTrip := by
    rw [List.forall_mem_append, List.forall_mem_append]
    rintro known ⟨before, after⟩
    have source : ∀ l ∈ some location, w.cwd = l := fun l mem =>
      (found known).trans (Option.some.inj mem)
    obtain ⟨restored, back⟩ := here.roundTrip source before
    have cwd : w'.cwd = location := (back rfl).trans (found known)
    obtain ⟨restored', back'⟩ := later.roundTrip (Or.inl cwd) after
    exact ⟨⟨restored, restored'⟩, fun returned => (back' returned).trans (back rfl)⟩

theorem walkedEntries {visit : Filename → World σ → Option Int × World σ} {location : Location}
    (visits : ∀ name w, ∃ new, Walked fs fails (some location) w (visit name w) new)
    (names : List Filename) (ret : Int) (w : World σ) :
    ∃ new, WalkedEntries fs fails location names ret w (readEntries visit names ret w) new := by
  induction names generalizing ret w with
  | nil =>
      refine ⟨[], ?_, ?_, ?_⟩
      · simp [readEntries]
      · simp [readEntries, OnlyDots]
      · simp [readEntries]
  | cons name names ih =>
      rw [readEntries]
      split
      · rename_i stopped
        refine ⟨[], ?_, ?_, ?_⟩
        · exact (List.append_nil _).symm
        · exact fun _ => ⟨List.forall_mem_nil _, fun zero => absurd zero stopped, fun _ => rfl⟩
        · exact fun _ _ => ⟨List.forall_mem_nil _, fun _ => rfl⟩
      · split
        · rename_i real
          have found : w.cwd = location ∨ OnlyDots (name :: names) → w.cwd = location := by
            rintro (same | dots)
            · exact same
            · rcases dots name List.mem_cons_self with eq | eq
              · exact absurd eq real.1
              · exact absurd eq real.2
          obtain ⟨first, here⟩ := visits name w
          rcases step : visit name w with ⟨_ | ret', w'⟩ <;> rw [step] at here
          · exact ⟨first, .stop fs fails here found⟩
          · obtain ⟨rest, later⟩ := ih ret' w'
            exact ⟨first ++ rest, .cons fs fails here later found⟩
        · rename_i dots
          have skipped : name = dot ∨ name = dotdot := by
            by_cases first : name = dot
            · exact Or.inl first
            · exact Or.inr (Classical.not_not.mp fun second => dots ⟨first, second⟩)
          have only : OnlyDots (name :: names) ↔ OnlyDots names := by
            simp [OnlyDots, skipped]
          obtain ⟨new, later⟩ := ih ret w
          refine ⟨new, later.log, ?_, ?_⟩
          · rw [only]
            exact later.restored
          · rw [only]
            exact later.roundTrip

theorem walked (fuel : Nat) (source : Option Location) (filename : Filename) (depth : Nat)
    (w : World σ) :
    ∃ new, Walked fs fails source w (dopath fs fails func fuel source filename depth w) new := by
  induction fuel generalizing source filename depth w with
  | zero =>
      refine ⟨[.lookup filename depth source w.cwd], rfl, ?_, ?_⟩
      · simp only [List.forall_mem_singleton, Restored, RoundTrip]
        exact fun known => ⟨trivial, known, not_returned _⟩
      · simp only [List.forall_mem_singleton, Restored, RoundTrip]
        exact fun known _ => ⟨known, not_returned _⟩
  | succ fuel ih =>
      have outcome := dopath_outcome fs fails func fuel source filename depth w
      generalize dopath fs fails func (fuel + 1) source filename depth w = result at outcome ⊢
      cases outcome with
      | unlisted cwd log =>
          refine ⟨_, log, ?_, ?_⟩ <;> rw [forall_pair, forall_pair]
          · rintro ⟨known, _⟩
            exact ⟨⟨trivial, trivial⟩, known, fun _ => cwd⟩
          · rintro known _
            exact ⟨⟨known, rfl⟩, fun _ => cwd⟩
      | @running location names entering w₁ w₂ _ cwd log read =>
          obtain ⟨new, entries⟩ := walkedEntries fs fails
            (fun name w => ih (some location) name (depth + 1) w) names 0 w₁
          rw [read] at entries
          refine ⟨[.lookup filename depth source w.cwd,
            .listing filename w.cwd location names entering] ++ new, ?_, ?_, ?_⟩
          · rw [entries.log, log, List.append_assoc]
          · rw [List.forall_mem_append, List.forall_mem_append, forall_pair, forall_pair]
            rintro ⟨⟨source, _⟩, all⟩
            obtain ⟨trips, found, _⟩ := entries.restored all
            rw [cwd] at found
            exact ⟨⟨⟨trivial, found rfl⟩, trips⟩, source, not_returned _⟩
          · rw [List.forall_mem_append, List.forall_mem_append, forall_pair, forall_pair]
            rintro known ⟨⟨_, found⟩, all⟩
            rw [RoundTrip, ← cwd] at found
            exact ⟨⟨⟨known, trivial⟩, (entries.roundTrip found all).1⟩, not_returned _⟩
      | @listed location names entering w₁ w₂ w' ret _ cwd log read cwd' log' =>
          obtain ⟨new, entries⟩ := walkedEntries fs fails
            (fun name w => ih (some location) name (depth + 1) w) names 0 w₁
          rw [read] at entries
          refine ⟨[.lookup filename depth source w.cwd,
            .listing filename w.cwd location names entering] ++ new ++
              [.returned filename w.cwd w'.cwd (some (entering, w₂.now))], ?_, ?_, ?_⟩
          · rw [log', entries.log, log]
            simp only [List.append_assoc]
          · simp only [List.forall_mem_append, forall_pair, List.forall_mem_singleton]
            rintro ⟨⟨⟨source, _⟩, all⟩, returned⟩
            obtain ⟨trips, found, back⟩ := entries.restored all
            have same : w'.cwd = w.cwd := returned
            rw [cwd', back rfl, cwd] at same
            rw [cwd] at found
            exact ⟨⟨⟨⟨trivial, found rfl⟩, trips⟩, same⟩, source, fun _ => returned⟩
          · simp only [List.forall_mem_append, forall_pair, List.forall_mem_singleton]
            rintro known ⟨⟨⟨_, found⟩, all⟩, landing⟩
            simp only [RoundTrip, ← cwd] at landing found
            obtain ⟨restored, back⟩ := entries.roundTrip found all
            have returned : w'.cwd = w.cwd := by
              rw [cwd', back rfl]
              exact landing
            exact ⟨⟨⟨⟨known, trivial⟩, restored⟩, returned⟩, fun _ => returned⟩

section entries

variable {fs fails func}

theorem lists_child {name : Name} {here location : Location} {names : List Filename}
    {entries : Entries} (listed : fs.root.at here = some (.dir readable entries))
    (lists : Lists fs name.text here location names) :
    fs.entered here name.text = some location ∧ location = here ++ [name.text] ∧
      ∃ inside : Entries, fs.root.at location = some (.dir true inside) ∧ inside.names = names := by
  obtain ⟨kind, inside, opened, names⟩ := lists
  cases found : entries.find name.text with
  | none =>
      rw [FileSystem.target, FileSystem.resolve_absent listed found] at kind
      cases kind
  | some node =>
      have resolved := FileSystem.resolve_child listed found
      have below := Node.at_child listed found
      rw [FileSystem.target_child listed found] at kind
      cases node with
      | dir readable' inside' =>
          rw [FileSystem.opened_of_resolve resolved below] at opened
          cases readable' with
          | false => cases opened
          | true =>
              cases opened
              exact ⟨FileSystem.entered_of_resolve resolved below, rfl, inside, below, names⟩
      | file kind' plain => exact absurd (Option.some.inj kind) plain.1
      | link target => cases kind
      | hidden => cases kind

theorem moved_eq (moves : ∀ t, fails.chdir t = false) (now : Nat) {filename : Filename}
    {here location : Location} (entered : fs.entered here filename = some location) :
    moved fs fails now filename here = location := by
  rw [moved, moves, entered]
  rfl

def Rounds (fs : FileSystem) (fails : Failures) (w : World σ) (result : Option Int × World σ) :
    Prop :=
  ∃ new, result.2.log = w.log ++ new ∧ ∀ event ∈ new, RoundTrip fs fails event

theorem Rounds.back {w : World σ} {result : Option Int × World σ} {new : List Event}
    {location : Location} (rounds : Rounds fs fails w result)
    (walked : Walked fs fails (some location) w result new) (cwd : w.cwd = location) :
    result.1.isSome → result.2.cwd = location := by
  obtain ⟨new', log, all⟩ := rounds
  rw [walked.log, List.append_cancel_left_eq] at log
  subst log
  intro returned
  have known : ∀ l ∈ some location, w.cwd = l := fun l mem => cwd.trans (Option.some.inj mem)
  exact ((walked.roundTrip known all).2 returned).trans cwd

theorem rounds_entries {visit : Filename → World σ → Option Int × World σ} {location : Location}
    (walks : ∀ name w, ∃ new, Walked fs fails (some location) w (visit name w) new)
    (visits : ∀ (name : Name) w, w.cwd = location → Rounds fs fails w (visit name.text w))
    (names : List Filename)
    (named : ∀ text ∈ names, text = dot ∨ text = dotdot ∨ ∃ name : Name, name.text = text)
    (ret : Int) (w : World σ) (cwd : w.cwd = location) :
    Rounds fs fails w (readEntries visit names ret w) := by
  induction names generalizing ret w with
  | nil => exact ⟨[], (List.append_nil _).symm, List.forall_mem_nil _⟩
  | cons text names ih =>
      obtain ⟨here, later⟩ := List.forall_mem_cons.mp named
      rw [readEntries]
      split
      · exact ⟨[], (List.append_nil _).symm, List.forall_mem_nil _⟩
      · split
        · rename_i real
          obtain ⟨name, rfl⟩ : ∃ name : Name, name.text = text :=
            (here.resolve_left real.1).resolve_left real.2
          obtain ⟨_, walked⟩ := walks name.text w
          have rounds := visits name w cwd
          have back := rounds.back walked cwd
          rcases step : visit name.text w with ⟨_ | ret', w'⟩ <;> rw [step] at rounds back
          · exact rounds
          · obtain ⟨first, log, all⟩ := rounds
            obtain ⟨rest, log', all'⟩ := ih later ret' w' (back rfl)
            refine ⟨first ++ rest, ?_, List.forall_mem_append.mpr ⟨all, all'⟩⟩
            rw [log', log, List.append_assoc]
        · exact ih later ret w cwd

theorem rounds_child (moves : ∀ t, fails.chdir t = false) (fuel : Nat) (source : Option Location)
    (name : Name) (depth : Nat) (w : World σ)
    (listed : ∃ readable entries, fs.root.at w.cwd = some (.dir readable entries)) :
    Rounds fs fails w (dopath fs fails func fuel source name.text depth w) := by
  induction fuel generalizing source name depth w with
  | zero => exact ⟨_, rfl, List.forall_mem_singleton.mpr trivial⟩
  | succ fuel ih =>
      obtain ⟨_, _, listed⟩ := listed
      have inside_rounds {location : Location} {inside : Entries} {w₁ : World σ}
          (there : fs.root.at location = some (.dir true inside)) (cwd : w₁.cwd = location) :
          Rounds fs fails w₁ (readEntries
            (fun name w => dopath fs fails func fuel (some location) name (depth + 1) w)
            inside.names 0 w₁) :=
        rounds_entries (fun name w => walked fs fails func fuel _ name _ w)
          (fun name w same => ih _ name _ w ⟨true, inside, same ▸ there⟩) _
          (fun _ => Entries.names_cases) 0 w₁ cwd
      have outcome := dopath_outcome fs fails func fuel source name.text depth w
      generalize dopath fs fails func (fuel + 1) source name.text depth w = result at outcome ⊢
      cases outcome with
      | unlisted cwd log => exact ⟨_, log, (forall_pair _ _).mpr ⟨trivial, trivial⟩⟩
      | @running location names entering w₁ w₂ lists cwd log read =>
          obtain ⟨entered, below, inside, there, rfl⟩ := lists_child listed lists
          have into := moved_eq moves entering entered
          obtain ⟨new, log', all⟩ := inside_rounds there (cwd.trans into)
          rw [read, log] at log'
          refine ⟨_, log'.trans (List.append_assoc ..), List.forall_mem_append.mpr ⟨?_, all⟩⟩
          exact (forall_pair _ _).mpr ⟨trivial, Or.inl into⟩
      | @listed location names entering w₁ w₂ w' ret lists cwd log read cwd' log' =>
          obtain ⟨entered, below, inside, there, rfl⟩ := lists_child listed lists
          have into := moved_eq moves entering entered
          obtain ⟨new, log'', all⟩ := inside_rounds there (cwd.trans into)
          rw [read, log] at log''
          have out := moved_eq moves w₂.now (FileSystem.entered_dotdot there)
          rw [below, List.dropLast_concat, ← below] at out
          refine ⟨[.lookup name.text depth source w.cwd,
            .listing name.text w.cwd location inside.names entering] ++ new ++
              [.returned name.text w.cwd w'.cwd (some (entering, w₂.now))], ?_, ?_⟩
          · rw [log', log'']
            simp only [List.append_assoc]
          · simp only [List.forall_mem_append, forall_pair, List.forall_mem_singleton]
            refine ⟨⟨⟨trivial, Or.inl into⟩, all⟩, ?_⟩
            rw [RoundTrip, into, out]

/-- So with no `chdir` that fails every call restores the working directory. -/
theorem restored_of_entry (moves : ∀ t, fails.chdir t = false) {cwd : Location}
    (listed : fs.root.at cwd = some (.dir readable entries)) (name : Name) (state : σ)
    (fuel : Nat) :
    ∀ event ∈ (dopath fs fails func fuel none name.text 0 (start cwd state)).2.log,
      Restored event := by
  obtain ⟨new', run⟩ := walked fs fails func fuel none name.text 0 (start cwd state)
  have rounds : Rounds fs fails (start cwd state)
      (dopath fs fails func fuel none name.text 0 (start cwd state)) :=
    rounds_child moves fuel none name 0 (start cwd state) ⟨_, _, listed⟩
  obtain ⟨new, log, all⟩ := rounds
  have same : new = new' := List.append_cancel_left (log.symm.trans run.log)
  subst same
  rw [log]
  exact (run.roundTrip (fun _ mem => absurd mem (Option.not_mem_none _)) all).1

end entries

/-- Over a run of `dopath` that `main` starts, whatever fails in it, every call restores the working
directory exactly if every directory that it lists is a round trip. -/
theorem restored_iff (filename : Filename) (cwd : Location) (state : σ) (fuel : Nat) :
    (∀ event ∈ (dopath fs fails func fuel none filename 0 (start cwd state)).2.log,
      Restored event) ↔
    ∀ event ∈ (dopath fs fails func fuel none filename 0 (start cwd state)).2.log,
      RoundTrip fs fails event := by
  obtain ⟨new, run⟩ := walked fs fails func fuel none filename 0 (start cwd state)
  rw [run.log]
  exact ⟨fun all => (run.restored all).1, fun all => (run.roundTrip nofun all).1⟩

end walk

def entryName (c : UInt8) (letter : c ≠ slash ∧ c ≠ 46) : Name where
  text := [c]
  nonempty := nofun
  single := by simpa using letter.1.symm
  not_dot := by simpa [dot] using letter.2
  not_dotdot := by simp [dotdot]

def small : FileSystem where
  root := .dir true (.child (entryName 97 (by decide))
    (.dir true (.child (entryName 98 (by decide)) (.dir true .nil)
      (.child (entryName 99 (by decide)) (.file .reg (by decide)) .nil))) .nil)
  valid := by
    simp [Node.Valid, Entries.Valid, Entries.names, entryName]
  directory := rfl

def never : Failures := steady fun _ => false

/-- Two directories, a file, and an `opendir` that fails in one of them. -/
theorem restored_of_entry_small :
    (dopath small { never with opendir := (· == 3) } counter 3 none [97] 0
      (start [] Counters.zero)).2.log.length = 8 ∧
    ∀ event ∈ (dopath small { never with opendir := (· == 3) } counter 3 none [97] 0
      (start [] Counters.zero)).2.log, Restored event :=
  ⟨by decide +kernel,
    restored_of_entry (fun _ => rfl) rfl (entryName 97 (by decide)) Counters.zero 3⟩

theorem restored_fails :
    (¬ ∀ event ∈ (dopath small never counter 2 none [97, slash, 98] 0
        (start [] Counters.zero)).2.log, Restored event) ∧
    ¬ ∀ event ∈ (dopath small { never with chdir := (· == 5) } counter 3 none [97] 0
        (start [] Counters.zero)).2.log, Restored event := by
  constructor
  · intro restored
    exact nomatch (restored (.returned [97, slash, 98] [] [[97]] (some (2, 3)))
      (by decide +kernel) : ([[97]] : Location) = [])
  · intro restored
    exact nomatch (restored (.returned [98] [[97]] [] (some (5, 6)))
      (by decide +kernel) : ([] : Location) = [[97]])

end OsUnix.DirWalk
