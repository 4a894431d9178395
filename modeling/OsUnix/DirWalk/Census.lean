import OsUnix.DirWalk.Model

/-!
# The census of a tree

What the walk visits, prints and counts when no system call fails of its own accord.
-/

namespace OsUnix.DirWalk
open Kernel

structure Visit where
  filename : Filename
  depth : Nat
  node : Node

def failing : Node → Bool
  | .hidden => true
  | .dir readable _ => !readable
  | _ => false

mutual

def preorder (filename : Filename) (depth : Nat) : Node → List Visit
  | .dir readable entries =>
      ⟨filename, depth, .dir readable entries⟩ :: preorderEntries (depth + 1) entries
  | .file kind plain => [⟨filename, depth, .file kind plain⟩]
  | .link target => [⟨filename, depth, .link target⟩]
  | .hidden => [⟨filename, depth, .hidden⟩]

def preorderEntries (depth : Nat) : Entries → List Visit
  | .nil => []
  | .dot rest => preorderEntries depth rest
  | .dotdot rest => preorderEntries depth rest
  | .child name node rest => preorder name.text depth node ++ preorderEntries depth rest

end

mutual

def height : Node → Nat
  | .dir _ entries => heightEntries entries + 1
  | _ => 0

def heightEntries : Entries → Nat
  | .nil => 0
  | .dot rest => heightEntries rest
  | .dotdot rest => heightEntries rest
  | .child _ node rest => max (height node) (heightEntries rest)

end

def reached : List Visit → List Visit
  | [] => []
  | visit :: visits => if failing visit.node then [visit] else visit :: reached visits

def succeeds (visits : List Visit) : Bool := visits.all fun visit => !failing visit.node

def lines (visit : Visit) : List (List UInt8) :=
  match visit.node with
  | .hidden => []
  | .dir _ _ => indent visit.depth ++ [entryLine visit.filename [47, 10]]
  | _ => indent visit.depth ++ [entryLine visit.filename [10]]

def Counters.of (counters : Counters) : Kind → Nat
  | .reg => counters.nreg
  | .dir => counters.ndir
  | .blk => counters.nblk
  | .chr => counters.nchr
  | .fifo => counters.nfifo
  | .lnk => counters.nslink
  | .sock => counters.nsock

def Counters.add (counters : Counters) : Option Kind → Counters
  | none => counters
  | some .reg => { counters with nreg := counters.nreg + 1 }
  | some .dir => { counters with ndir := counters.ndir + 1 }
  | some .blk => { counters with nblk := counters.nblk + 1 }
  | some .chr => { counters with nchr := counters.nchr + 1 }
  | some .fifo => { counters with nfifo := counters.nfifo + 1 }
  | some .lnk => { counters with nslink := counters.nslink + 1 }
  | some .sock => { counters with nsock := counters.nsock + 1 }

theorem of_add (counters : Counters) (found : Option Kind) (kind : Kind) :
    (counters.add found).of kind = counters.of kind + if found = some kind then 1 else 0 := by
  rcases found with _ | found
  · rfl
  · cases found <;> cases kind <;> rfl

def Event.looked : Event → Option (Filename × Nat)
  | .lookup filename depth _ _ => some (filename, depth)
  | _ => none

structure Surveyed (visits : List Visit) (w : World Counters)
    (result : Option Int × World Counters) : Prop where
  ret : result.1 = some (if succeeds visits then 0 else -1)
  out : result.2.out = w.out ++ (reached visits).flatMap lines
  counters : result.2.state =
    (reached visits).foldl (fun counters visit => counters.add visit.node.kind) w.state
  order : result.2.log.filterMap Event.looked = w.log.filterMap Event.looked ++
    (reached visits).map fun visit => (visit.filename, visit.depth)

section visits

variable {visits first second : List Visit}

theorem reached_append (all : succeeds first = true) :
    reached (first ++ second) = first ++ reached second := by
  induction first with
  | nil => rfl
  | cons visit first ih =>
      simp only [succeeds, List.all_cons, Bool.and_eq_true, Bool.not_eq_true'] at all
      simp [reached, all.1, ih all.2]

theorem reached_stop (failed : succeeds first = false) :
    reached (first ++ second) = reached first := by
  induction first with
  | nil => cases failed
  | cons visit first ih =>
      by_cases here : failing visit.node
      · simp [reached, here]
      · simp only [succeeds, List.all_cons, here, Bool.not_false, Bool.true_and] at failed
        simp [reached, here, ih failed]

theorem reached_all (all : succeeds visits = true) : reached visits = visits := by
  have done := @reached_append visits [] all
  simpa [reached] using done

theorem Surveyed.append {w w' : World Counters} {result : Option Int × World Counters}
    {ret : Int} (zero : ret = 0) (before : Surveyed first w (some ret, w'))
    (after : Surveyed second w' result) : Surveyed (first ++ second) w result := by
  have all : succeeds first = true := by
    have ret := before.ret
    subst zero
    cases eq : succeeds first with
    | true => rfl
    | false => simp [eq] at ret
  have rest : succeeds (first ++ second) = succeeds second := by
    simp only [succeeds, List.all_append] at all ⊢
    rw [all, Bool.true_and]
  refine ⟨?_, ?_, ?_, ?_⟩
  · rw [rest, after.ret]
  · rw [after.out, before.out, reached_append all, reached_all all]
    simp
  · rw [after.counters, before.counters, reached_append all, reached_all all, List.foldl_append]
  · rw [after.order, before.order, reached_append all, reached_all all]
    simp

theorem Surveyed.stop {w w' : World Counters} {ret : Int} (nonzero : ret ≠ 0)
    (before : Surveyed first w (some ret, w')) :
    Surveyed (first ++ second) w (some ret, w') := by
  have failed : succeeds first = false := by
    have ret := before.ret
    cases eq : succeeds first with
    | false => rfl
    | true =>
        simp only [eq, Option.some.injEq] at ret
        exact absurd ret nonzero
  have all : succeeds (first ++ second) = false := by
    simp only [succeeds, List.all_append] at failed ⊢
    rw [failed, Bool.false_and]
  refine ⟨?_, ?_, ?_, ?_⟩
  · rw [all, ← failed]
    exact before.ret
  · rw [reached_stop failed]
    exact before.out
  · rw [reached_stop failed]
    exact before.counters
  · rw [reached_stop failed]
    exact before.order

end visits

section survey

variable {fs : FileSystem} {closing : Nat → Bool} {fuel depth : Nat} {source : Option Location}
  {filename : Filename} {w : World Counters}

theorem surveyed_hidden (here : fs.target w.cwd filename = .hidden) :
    ∃ ret w', dopath fs (steady closing) counter (fuel + 1) source filename depth w =
        (some ret, w') ∧
      Surveyed (preorder filename depth .hidden) w (some ret, w') ∧ w'.cwd = w.cwd := by
  simp only [dopath, World.record, lstat_steady, here, Node.kind]
  refine ⟨_, _, rfl, ?_, rfl⟩
  constructor <;> simp [World.record, callFunc, counter, preorder, reached, failing, succeeds,
    lines, Event.looked, Counters.add, Node.kind]

theorem counter_file {kind : Kind} (other : kind ≠ .dir) (counters : Counters) :
    counter filename (some kind) .f counters =
      ⟨0, [entryLine filename [10]], [], counters.add (some kind)⟩ := by
  cases kind <;> first | rfl | exact absurd rfl other

theorem file_cases (filename : Filename) (depth : Nat) {node : Node} {kind : Kind}
    (is_file : node.kind = some kind) (other : kind ≠ .dir) :
    failing node = false ∧
      preorder filename depth node = [⟨filename, depth, node⟩] ∧
      lines ⟨filename, depth, node⟩ = indent depth ++ [entryLine filename [10]] := by
  cases node with
  | file kind plain => exact ⟨rfl, rfl, rfl⟩
  | link target => exact ⟨rfl, rfl, rfl⟩
  | dir readable entries => exact absurd (Option.some.inj is_file).symm other
  | hidden => cases is_file

theorem surveyed_file {node : Node} {kind : Kind} (here : fs.target w.cwd filename = node)
    (is_file : node.kind = some kind) (other : kind ≠ .dir) :
    ∃ ret w', dopath fs (steady closing) counter (fuel + 1) source filename depth w =
        (some ret, w') ∧
      Surveyed (preorder filename depth node) w (some ret, w') ∧ w'.cwd = w.cwd := by
  obtain ⟨passes, single, line⟩ := file_cases filename depth is_file other
  simp only [dopath, World.record, lstat_steady, here, is_file, if_pos other]
  refine ⟨_, _, rfl, ?_, rfl⟩
  constructor <;> simp [World.record, callFunc, counter_file other, single, reached, passes,
    succeeds, line, Event.looked, is_file]

theorem surveyed_locked {entries : Entries}
    (here : fs.target w.cwd filename = .dir false entries) :
    ∃ ret w', dopath fs (steady closing) counter (fuel + 1) source filename depth w =
        (some ret, w') ∧
      Surveyed (preorder filename depth (.dir false entries)) w (some ret, w') ∧
      w'.cwd = w.cwd := by
  obtain ⟨location, resolved, listed⟩ := FileSystem.target_eq_dir here
  have refused := FileSystem.opened_of_resolve resolved listed
  simp only [dopath, World.record, lstat_steady, here, Node.kind, callFunc, counter,
    opendir_steady, refused]
  refine ⟨_, _, rfl, ?_, rfl⟩
  constructor <;> simp [World.record, preorder, reached, failing, succeeds, lines, Event.looked,
    Counters.add, Node.kind]

theorem dopath_listed (closing : Nat → Bool) (fuel depth : Nat) (source : Option Location)
    {entries : Entries} {location : Location}
    (resolved : fs.resolve false w.cwd filename = some location)
    (listed : fs.root.at location = some (.dir true entries)) :
    ∃ (entering : Nat) (w₁ : World Counters), w₁.cwd = location ∧
      w₁.out = w.out ++ lines ⟨filename, depth, .dir true entries⟩ ∧
      w₁.state = w.state.add (some .dir) ∧
      w₁.log.filterMap Event.looked = w.log.filterMap Event.looked ++ [(filename, depth)] ∧
      ∀ ret w₂, readEntries
          (fun name w => dopath fs (steady closing) counter fuel (some location) name (depth + 1) w)
          entries.names 0 w₁ = (some ret, w₂) →
        dopath fs (steady closing) counter (fuel + 1) source filename depth w =
          leave filename w.cwd (some (entering, w₂.now))
            (ret, closedir (steady closing) (chdir fs (steady closing) dotdot w₂)) := by
  have here : fs.target w.cwd filename = .dir true entries := by
    simp [FileSystem.target, resolved, listed]
  have opened := FileSystem.opened_of_resolve resolved listed
  have entered := FileSystem.entered_of_resolve resolved listed
  refine ⟨w.now + 1 + 1, ⟨location, w.now + 1 + 1 + 1,
    w.out ++ (indent depth ++ [entryLine filename [47, 10]]), w.err,
    { w.state with ndir := w.state.ndir + 1 }, w.log ++ [.lookup filename depth source w.cwd,
      .listing filename w.cwd location entries.names (w.now + 1 + 1)]⟩, rfl, rfl, rfl, ?_, ?_⟩
  · simp [Event.looked]
  · intro ret w₂ read
    simp [dopath, World.record, lstat_steady, here, Node.kind, callFunc, counter, opendir_steady,
      opened, chdir_steady, entered, read]

theorem Surveyed.listed {entries : Entries} {ret : Int} {w₁ w₂ : World Counters} {entering : Nat}
    (survey : Surveyed (preorderEntries (depth + 1) entries) w₁ (some ret, w₂))
    (out : w₁.out = w.out ++ lines ⟨filename, depth, .dir true entries⟩)
    (state : w₁.state = w.state.add (some .dir))
    (order : w₁.log.filterMap Event.looked =
      w.log.filterMap Event.looked ++ [(filename, depth)]) :
    Surveyed (preorder filename depth (.dir true entries)) w
      (leave filename w.cwd (some (entering, w₂.now))
        (ret, closedir (steady closing) (chdir fs (steady closing) dotdot w₂))) := by
  have out₂ : w₂.out = _ := survey.out
  have state₂ : w₂.state = _ := survey.counters
  have order₂ : w₂.log.filterMap Event.looked = _ := survey.order
  refine ⟨?_, ?_, ?_, ?_⟩
  · simpa [leave, preorder, succeeds, failing] using survey.ret
  · simp [leave, World.record, closedir, chdir, preorder, reached, failing, out₂, out]
  · simp [leave, World.record, closedir, chdir, preorder, reached, failing, state₂, state]
  · simp [leave, World.record, closedir, chdir, preorder, reached, failing, order₂, order,
      Event.looked]

theorem Surveyed.nil : Surveyed [] w (some 0, w) := by
  constructor <;> simp [succeeds, reached]

mutual

theorem surveyed (closing : Nat → Bool) (node : Node) (fuel depth : Nat)
    (source : Option Location) {filename : Filename} {w : World Counters}
    (here : fs.target w.cwd filename = node)
    (enough : height node < fuel) (valid : node.Valid) :
    ∃ ret w', dopath fs (steady closing) counter fuel source filename depth w = (some ret, w') ∧
      Surveyed (preorder filename depth node) w (some ret, w') ∧
      (fs.resolve false w.cwd filename = some (w.cwd ++ [filename]) → w'.cwd = w.cwd) := by
  obtain ⟨fuel, rfl⟩ := Nat.exists_eq_succ_of_ne_zero (Nat.ne_of_gt (Nat.zero_lt_of_lt enough))
  cases node with
  | file kind plain =>
      obtain ⟨ret, w', run, survey, cwd⟩ := surveyed_file here rfl plain.1
      exact ⟨ret, w', run, survey, fun _ => cwd⟩
  | link target =>
      obtain ⟨ret, w', run, survey, cwd⟩ := surveyed_file here rfl nofun
      exact ⟨ret, w', run, survey, fun _ => cwd⟩
  | hidden =>
      obtain ⟨ret, w', run, survey, cwd⟩ := surveyed_hidden here
      exact ⟨ret, w', run, survey, fun _ => cwd⟩
  | dir readable entries =>
      cases readable with
      | false =>
          obtain ⟨ret, w', run, survey, cwd⟩ := surveyed_locked here
          exact ⟨ret, w', run, survey, fun _ => cwd⟩
      | true =>
          obtain ⟨location, resolved, listed⟩ := FileSystem.target_eq_dir here
          obtain ⟨entering, w₁, cwd, out, state, order, continues⟩ :=
            dopath_listed closing fuel depth source resolved listed
          obtain ⟨ret, w₂, read, survey, back⟩ := surveyedEntries closing entries (depth + 1) listed
            (fun _ _ => Entries.find_mem valid) (Nat.lt_of_succ_lt_succ enough) valid cwd
          refine ⟨_, _, continues ret w₂ read, survey.listed out state order, ?_⟩
          intro child
          have below : location = w.cwd ++ [filename] := Option.some.inj (resolved.symm.trans child)
          have parent : location.dropLast = w.cwd := by rw [below, List.dropLast_concat]
          rw [← back] at listed
          show (fs.entered w₂.cwd dotdot).getD w₂.cwd = w.cwd
          rw [FileSystem.entered_dotdot listed, Option.getD_some, back, parent]

theorem surveyedEntries (closing : Nat → Bool) (entries : Entries) {fuel : Nat} (depth : Nat)
    {location : Location} {all : Entries} {w : World Counters}
    (listed : fs.root.at location = some (.dir true all))
    (found : ∀ name node, (name, node) ∈ entries.children → all.find name.text = some node)
    (enough : heightEntries entries < fuel) (valid : entries.Valid) (cwd : w.cwd = location) :
    ∃ ret w', readEntries
        (fun name w => dopath fs (steady closing) counter fuel (some location) name depth w)
        entries.names 0 w = (some ret, w') ∧
      Surveyed (preorderEntries depth entries) w (some ret, w') ∧ w'.cwd = location := by
  cases entries with
  | nil => exact ⟨0, w, rfl, Surveyed.nil, cwd⟩
  | dot rest => exact surveyedEntries closing rest depth listed found enough valid cwd
  | dotdot rest => exact surveyedEntries closing rest depth listed found enough valid cwd
  | child name node rest =>
      obtain ⟨_, valid, later⟩ := valid
      have first := found name node List.mem_cons_self
      subst cwd
      obtain ⟨ret, w', step, survey, back⟩ := surveyed closing node fuel depth (some w.cwd)
        (FileSystem.target_child listed first)
        (Nat.lt_of_le_of_lt (Nat.le_max_left _ _) enough) valid
      have cwd := back (FileSystem.resolve_child listed first)
      have visited : readEntries
          (fun name w' => dopath fs (steady closing) counter fuel (some w.cwd) name depth w')
          (name.text :: rest.names) 0 w = readEntries
          (fun name w' => dopath fs (steady closing) counter fuel (some w.cwd) name depth w')
          rest.names ret w' := by
        simp [readEntries, name.not_dot, name.not_dotdot, step]
      by_cases zero : ret = 0
      · subst zero
        obtain ⟨ret, w₂, read, surveyed, back⟩ := surveyedEntries closing rest depth listed
          (fun name node mem => found name node (List.mem_cons_of_mem _ mem))
          (Nat.lt_of_le_of_lt (Nat.le_max_right _ _) enough) later cwd
        exact ⟨ret, w₂, visited.trans read, survey.append rfl surveyed, back⟩
      · exact ⟨ret, w', visited.trans (readEntries_stop zero _ _), survey.stop zero, cwd⟩

end

end survey

structure Counted (passed : List Visit) (failed : Option Visit) (w : World Counters) : Prop where
  order : w.log.filterMap Event.looked =
    (passed ++ failed.toList).map fun visit => (visit.filename, visit.depth)
  out : w.out = (passed ++ failed.toList).flatMap lines
  counters : ∀ kind, w.state.of kind =
    (passed.countP fun visit => visit.node.kind = some kind) +
      if kind = .dir ∧ failed.any (·.node.kind = some .dir) then 1 else 0

theorem of_foldl (visits : List Visit) (counters : Counters) (kind : Kind) :
    (visits.foldl (fun counters visit => counters.add visit.node.kind) counters).of kind =
      counters.of kind + visits.countP fun visit => visit.node.kind = some kind := by
  induction visits generalizing counters with
  | nil => rfl
  | cons visit visits ih =>
      rw [List.foldl_cons, ih, of_add, List.countP_cons]
      simp only [decide_eq_true_eq]
      omega

theorem first_failing {visits : List Visit} (failed : succeeds visits = false) :
    ∃ passed first rest, visits = passed ++ first :: rest ∧ succeeds passed = true ∧
      failing first.node = true := by
  induction visits with
  | nil => cases failed
  | cons visit visits ih =>
      by_cases here : failing visit.node = true
      · exact ⟨[], visit, visits, rfl, rfl, here⟩
      · simp only [succeeds, List.all_cons, here, Bool.not_false, Bool.true_and] at failed
        obtain ⟨passed, first, rest, rfl, all, found⟩ := ih failed
        exact ⟨visit :: passed, first, rest, rfl, by simpa [succeeds, here] using all, found⟩

theorem kind_failing {node : Node} (failed : failing node = true) (kind : Kind) :
    node.kind = some kind ↔ kind = .dir ∧ node.kind = some .dir := by
  cases node with
  | dir readable entries => simp [eq_comm]
  | hidden => simp [Node.kind]
  | file kind plain => cases failed
  | link target => cases failed

theorem Surveyed.counted {visits passed : List Visit} {failed : Option Visit} {ret : Int}
    {cwd : Location} {w : World Counters}
    (survey : Surveyed visits (start cwd Counters.zero) (some ret, w))
    (failing : ∀ visit ∈ failed, failing visit.node = true)
    (split : reached visits = passed ++ failed.toList) : Counted passed failed w := by
  refine ⟨?_, ?_, fun kind => ?_⟩
  · rw [← split]
    exact survey.order
  · rw [← split]
    exact survey.out
  · have state : w.state = _ := survey.counters
    have zero : Counters.zero.of kind = 0 := by cases kind <;> rfl
    rw [state, of_foldl, split, List.countP_append]
    show Counters.zero.of kind + _ = _
    rw [zero, Nat.zero_add]
    congr 1
    cases failed with
    | none => simp
    | some visit =>
        have dir := kind_failing (failing visit rfl) kind
        simp [List.countP_cons, dir]

/-- The walk of `main` visits the tree in preorder up to its first failing node, and its return code
and counters tell how far it came. -/
theorem census (fs : FileSystem) (closing : Nat → Bool) (cwd : Location) (filename : Filename)
    (fuel : Nat) :
    ∃ ret w, dopath fs (steady closing) counter (height (fs.target cwd filename) + 1 + fuel) none
        filename 0 (start cwd Counters.zero) = (some ret, w) ∧
      ((ret = 0 ∧ succeeds (preorder filename 0 (fs.target cwd filename)) ∧
        Counted (preorder filename 0 (fs.target cwd filename)) none w) ∨
      (ret = -1 ∧ ∃ passed failed rest,
        preorder filename 0 (fs.target cwd filename) = passed ++ failed :: rest ∧
        succeeds passed ∧ failing failed.node ∧ Counted passed (some failed) w)) := by
  obtain ⟨ret, w, run, survey, _⟩ := surveyed closing (fs.target cwd filename)
    (height (fs.target cwd filename) + 1 + fuel) 0 none (w := start cwd Counters.zero) rfl
    (Nat.lt_of_lt_of_le (Nat.lt_succ_self _) (Nat.le_add_right _ _)) (fs.valid_target cwd filename)
  refine ⟨ret, w, run, ?_⟩
  have verdict := survey.ret
  cases all : succeeds (preorder filename 0 (fs.target cwd filename)) with
  | true =>
      rw [all] at verdict
      left
      refine ⟨Option.some.inj verdict, rfl, survey.counted nofun ?_⟩
      rw [reached_all all, Option.toList_none, List.append_nil]
  | false =>
      rw [all] at verdict
      obtain ⟨passed, failed, rest, visits, through, found⟩ := first_failing all
      right
      refine ⟨Option.some.inj verdict, passed, failed, rest, visits, through, found,
        survey.counted (fun visit mem => Option.some.inj mem ▸ found) ?_⟩
      rw [visits, reached_append through, reached, if_pos found, Option.toList_some]

end OsUnix.DirWalk
