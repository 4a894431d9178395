import OsUnix.Kernel.Strtok
import Mathlib.Data.List.Nodup

/-!
# Directories and pathnames

A file system as a tree, and the resolution of a pathname in it from a working directory.
-/

namespace OsUnix.Kernel

abbrev Filename := List UInt8

def slash : UInt8 := 47

def dot : Filename := [46]

def dotdot : Filename := [46, 46]

/-- The name of an entry other than `.` and `..`. -/
structure Name where
  text : Filename
  nonempty : text ≠ []
  single : slash ∉ text
  not_dot : text ≠ dot
  not_dotdot : text ≠ dotdot
  deriving DecidableEq

inductive Kind
  | reg | dir | chr | blk | fifo | lnk | sock
  deriving DecidableEq, Repr

mutual

inductive Node
  | file (kind : Kind) (plain : kind ≠ .dir ∧ kind ≠ .lnk)
  | link (target : Filename)
  | dir (readable : Bool) (entries : Entries)
  /-- `lstat` fails. -/
  | hidden

/-- The entries of a directory in the order of `readdir`. -/
inductive Entries
  | nil
  | dot (rest : Entries)
  | dotdot (rest : Entries)
  | child (name : Name) (node : Node) (rest : Entries)

end

def Entries.names : Entries → List Filename
  | .nil => []
  | .dot rest => Kernel.dot :: rest.names
  | .dotdot rest => Kernel.dotdot :: rest.names
  | .child name _ rest => name.text :: rest.names

def Entries.find : Entries → Filename → Option Node
  | .nil, _ => none
  | .dot rest, text => rest.find text
  | .dotdot rest, text => rest.find text
  | .child name node rest, text => if name.text = text then some node else rest.find text

def Entries.children : Entries → List (Name × Node)
  | .nil => []
  | .dot rest => rest.children
  | .dotdot rest => rest.children
  | .child name node rest => (name, node) :: rest.children

def Node.kind : Node → Option Kind
  | .file kind _ => some kind
  | .link _ => some .lnk
  | .dir _ _ => some .dir
  | .hidden => none

@[simp] theorem Node.kind_dir (readable : Bool) (entries : Entries) :
    (Node.dir readable entries).kind = some .dir := rfl

mutual

def Node.Valid : Node → Prop
  | .dir _ entries => entries.Valid
  | _ => True

def Entries.Valid : Entries → Prop
  | .nil => True
  | .dot rest => rest.Valid
  | .dotdot rest => rest.Valid
  | .child name node rest => name.text ∉ rest.names ∧ node.Valid ∧ rest.Valid

end

abbrev Location := List Filename

def Node.at : Node → Location → Option Node
  | node, [] => some node
  | .dir _ entries, text :: rest =>
      match entries.find text with
      | some node => node.at rest
      | none => none
  | _, _ :: _ => none

structure FileSystem where
  root : Node
  valid : root.Valid
  directory : root.kind = some .dir

def absolute (filename : Filename) : Bool := filename.head? = some slash

/-- A slash at the end stands for `/.`. -/
def components (filename : Filename) : List Filename :=
  tokens slash filename.length filename ++
    if filename.getLast? = some slash then [dot] else []

def walkWith (root : Node) (follow : Bool) (again : Location → List Filename → Option Location) :
    Location → List Filename → Option Location
  | here, [] => some here
  | here, text :: rest =>
      match root.at here with
      | some (.dir _ entries) =>
          if text = dot then walkWith root follow again here rest
          else if text = dotdot then walkWith root follow again here.dropLast rest
          else match entries.find text with
            | none => none
            | some (.link target) =>
                if rest = [] ∧ follow = false then some (here ++ [text])
                else again (if absolute target then [] else here) (components target ++ rest)
            | some _ => walkWith root follow again (here ++ [text]) rest
      | _ => none

def walk (root : Node) (follow : Bool) : Nat → Location → List Filename → Option Location
  | 0 => walkWith root follow fun _ _ => none
  | links + 1 => walkWith root follow (walk root follow links)

def maxSymlinks : Nat := 40

namespace FileSystem

variable (fs : FileSystem)

-- What `lstat`, `opendir` and `chdir` make of a filename: `target`, `opened` and `entered`.
def resolve (follow : Bool) (cwd : Location) (filename : Filename) : Option Location :=
  if filename = [] then none
  else walk fs.root follow maxSymlinks (if absolute filename then [] else cwd) (components filename)

def target (cwd : Location) (filename : Filename) : Node :=
  match fs.resolve false cwd filename with
  | none => .hidden
  | some location => (fs.root.at location).getD .hidden

def opened (cwd : Location) (filename : Filename) : Option (Location × Entries) := do
  let location ← fs.resolve true cwd filename
  match fs.root.at location with
  | some (.dir true entries) => some (location, entries)
  | _ => none

def entered (cwd : Location) (filename : Filename) : Option Location := do
  let location ← fs.resolve true cwd filename
  match fs.root.at location with
  | some (.dir _ _) => some location
  | _ => none

end FileSystem

/-! ## Names of entries -/

section names

variable {entries : Entries} {name : Name} {node root : Node} {here location : Location}
  {text : Filename} {rest : List Filename} {follow : Bool}

theorem not_absolute (name : Name) : absolute name.text = false := by
  apply decide_eq_false
  intro first
  exact name.single (List.mem_of_head? first)

theorem tokens_name (name : Name) : tokens slash name.text.length name.text = [name.text] := by
  rw [tokens_eq_take, words_of_not_mem name.nonempty name.single]
  exact List.take_of_length_le (List.length_pos_iff.mpr name.nonempty)

theorem components_name (name : Name) : components name.text = [name.text] := by
  have last : name.text.getLast? ≠ some slash := fun last => name.single (List.mem_of_getLast? last)
  rw [components, tokens_name, if_neg last]
  rfl

theorem Entries.find_mem (valid : entries.Valid) (mem : (name, node) ∈ entries.children) :
    entries.find name.text = some node := by
  have named : ∀ (es : Entries), (name, node) ∈ es.children → name.text ∈ es.names := by
    intro es
    induction es using Entries.children.induct with
    | case1 => exact fun mem => nomatch mem
    | case2 rest ih => exact fun mem => List.mem_cons_of_mem _ (ih mem)
    | case3 rest ih => exact fun mem => List.mem_cons_of_mem _ (ih mem)
    | case4 first node' rest ih =>
        intro mem
        rcases List.mem_cons.mp mem with here | later
        · cases here
          exact List.mem_cons_self
        · exact List.mem_cons_of_mem _ (ih later)
  induction entries using Entries.children.induct with
  | case1 => cases mem
  | case2 rest ih => exact ih valid mem
  | case3 rest ih => exact ih valid mem
  | case4 first node' rest ih =>
      obtain ⟨fresh, _, valid⟩ := valid
      rw [Entries.find]
      rcases List.mem_cons.mp mem with here | later
      · cases here
        exact if_pos rfl
      · rw [if_neg, ih valid later]
        intro same
        exact fresh (same ▸ named rest later)

theorem Entries.names_cases (mem : text ∈ entries.names) :
    text = Kernel.dot ∨ text = Kernel.dotdot ∨ ∃ name : Name, name.text = text := by
  induction entries using Entries.children.induct with
  | case1 => cases mem
  | case2 rest ih => exact (List.mem_cons.mp mem).elim Or.inl ih
  | case3 rest ih => exact (List.mem_cons.mp mem).elim (fun eq => Or.inr (Or.inl eq)) ih
  | case4 name node rest ih =>
      exact (List.mem_cons.mp mem).elim (fun eq => Or.inr (Or.inr ⟨name, eq.symm⟩)) ih

theorem Node.at_append (p q : Location) : node.at (p ++ q) = (node.at p).bind (·.at q) := by
  induction p generalizing node with
  | nil => rfl
  | cons text p ih =>
      rw [List.cons_append]
      cases node with
      | dir readable entries =>
          simp only [Node.at]
          cases entries.find text with
          | none => rfl
          | some node => exact ih
      | file kind plain => rfl
      | link target => rfl
      | hidden => rfl

theorem Node.at_child (listed : root.at here = some (.dir readable entries))
    (found : entries.find text = some node) : root.at (here ++ [text]) = some node := by
  simp [Node.at_append, listed, Node.at, found]

theorem Entries.valid_find (valid : entries.Valid) (found : entries.find text = some node) :
    node.Valid := by
  induction entries using Entries.children.induct with
  | case1 => cases found
  | case2 rest ih => exact ih valid found
  | case3 rest ih => exact ih valid found
  | case4 first node' rest ih =>
      obtain ⟨_, here, later⟩ := valid
      rw [Entries.find] at found
      split at found
      · cases Option.some.inj found
        exact here
      · exact ih later found

theorem Node.valid_at (valid : root.Valid) (located : root.at location = some node) :
    node.Valid := by
  induction location generalizing root with
  | nil =>
      cases Option.some.inj located
      exact valid
  | cons text rest ih =>
      cases root with
      | dir readable entries =>
          simp only [Node.at] at located
          split at located
          · exact ih (Entries.valid_find valid ‹_›) located
          · cases located
      | file kind plain => cases located
      | link target => cases located
      | hidden => cases located

theorem Node.at_dropLast (directory : root.kind = some .dir)
    (located : (root.at location).isSome) :
    ∃ readable entries, root.at location.dropLast = some (.dir readable entries) := by
  rcases List.eq_nil_or_concat' location with rfl | ⟨above, text, rfl⟩
  · cases root with
    | dir readable entries => exact ⟨readable, entries, rfl⟩
    | file kind plain => exact absurd (Option.some.inj directory) plain.1
    | link target => cases directory
    | hidden => cases directory
  · rw [List.dropLast_concat]
    rw [Node.at_append] at located
    cases up : root.at above with
    | none => simp [up] at located
    | some node =>
        cases node with
        | dir readable entries => exact ⟨readable, entries, rfl⟩
        | file kind plain => simp [up, Node.at] at located
        | link target => simp [up, Node.at] at located
        | hidden => simp [up, Node.at] at located

end names

section resolution

variable {entries : Entries} {name : Name} {node root : Node} {here location : Location}
  {again again' : Location → List Filename → Option Location} {path : List Filename}

theorem walk_eq (root : Node) (follow : Bool) (links : Nat) :
    ∃ again, walk root follow links = walkWith root follow again := by
  cases links with
  | zero => exact ⟨_, rfl⟩
  | succ links => exact ⟨_, rfl⟩

theorem directory_of_walkWith
    (walked : walkWith root follow again here (text :: rest) = some location) :
    ∃ readable entries, root.at here = some (.dir readable entries) := by
  rw [walkWith] at walked
  split at walked
  · exact ⟨_, _, ‹_›⟩
  · cases walked

theorem walkWith_follow (agrees : ∀ here path, again here path = some location →
      again' here path = some location)
    (walked : walkWith root false again here path = some location)
    (listed : root.at location = some (.dir readable entries)) :
    walkWith root true again' here path = some location := by
  induction path generalizing here with
  | nil => exact walked
  | cons text rest ih =>
      obtain ⟨_, above, up⟩ := directory_of_walkWith walked
      rw [walkWith, up] at walked ⊢
      dsimp only at walked ⊢
      split at walked
      · rw [if_pos ‹_›]
        exact ih walked
      · rw [if_neg ‹_›]
        split at walked
        · rw [if_pos ‹_›]
          exact ih walked
        · rw [if_neg ‹_›]
          cases found : above.find text with
          | none => simp [found] at walked
          | some node =>
              cases node <;> simp only [found] at walked ⊢
              case link target =>
                split at walked
                · cases Option.some.inj walked
                  rw [Node.at_child up found] at listed
                  cases listed
                · rw [if_neg (by simp)]
                  exact agrees _ _ walked
              all_goals exact ih walked

theorem walk_follow {links : Nat} (walked : walk root false links here path = some location)
    (listed : root.at location = some (.dir readable entries)) :
    walk root true links here path = some location := by
  induction links generalizing here path with
  | zero => exact walkWith_follow (fun _ _ => id) walked listed
  | succ links ih => exact walkWith_follow (fun _ _ => ih) walked listed

namespace FileSystem

variable {fs : FileSystem}

theorem resolve_follow {filename : Filename}
    (resolved : fs.resolve false here filename = some location)
    (listed : fs.root.at location = some (.dir readable entries)) :
    fs.resolve true here filename = some location := by
  rw [resolve] at resolved ⊢
  split at resolved
  · cases resolved
  · rw [if_neg ‹_›]
    exact walk_follow resolved listed

theorem resolve_child (listed : fs.root.at here = some (.dir readable entries))
    (found : entries.find name.text = some node) :
    fs.resolve false here name.text = some (here ++ [name.text]) := by
  obtain ⟨again, walk⟩ := walk_eq fs.root false maxSymlinks
  rw [resolve, if_neg name.nonempty, not_absolute, components_name, walk]
  cases node <;> simp [walkWith, listed, found, name.not_dot, name.not_dotdot]

theorem resolve_absent (listed : fs.root.at here = some (.dir readable entries))
    (absent : entries.find name.text = none) : fs.resolve false here name.text = none := by
  obtain ⟨again, walk⟩ := walk_eq fs.root false maxSymlinks
  rw [resolve, if_neg name.nonempty, not_absolute, components_name, walk]
  simp [walkWith, listed, absent, name.not_dot, name.not_dotdot]

theorem resolve_dotdot (listed : fs.root.at here = some (.dir readable entries)) (follow : Bool) :
    fs.resolve follow here dotdot = some here.dropLast := by
  obtain ⟨again, walk⟩ := walk_eq fs.root follow maxSymlinks
  have single : components dotdot = [dotdot] := by decide
  have relative : absolute dotdot = false := by decide
  have other : dotdot ≠ dot := by decide
  rw [resolve, if_neg (by decide), relative, single, walk]
  simp [walkWith, listed, other]

theorem target_child (listed : fs.root.at here = some (.dir readable entries))
    (found : entries.find name.text = some node) : fs.target here name.text = node := by
  simp [target, resolve_child listed found, Node.at_child listed found]

theorem valid_target (fs : FileSystem) (cwd : Location) (filename : Filename) :
    (fs.target cwd filename).Valid := by
  rw [target]
  split
  · trivial
  · rename_i location _
    cases located : fs.root.at location with
    | none => trivial
    | some node => exact Node.valid_at fs.valid located

theorem target_eq_dir {filename : Filename}
    (is_dir : fs.target here filename = .dir readable entries) :
    ∃ location, fs.resolve false here filename = some location ∧
      fs.root.at location = some (.dir readable entries) := by
  rw [target] at is_dir
  cases resolved : fs.resolve false here filename with
  | none => simp [resolved] at is_dir
  | some location =>
      refine ⟨location, rfl, ?_⟩
      cases located : fs.root.at location with
      | none => simp [resolved, located] at is_dir
      | some node => simpa [resolved, located] using is_dir

theorem entered_of_resolve {filename : Filename}
    (resolved : fs.resolve false here filename = some location)
    (listed : fs.root.at location = some (.dir readable entries)) :
    fs.entered here filename = some location := by
  simp [entered, resolve_follow resolved listed, listed]

theorem opened_of_resolve {filename : Filename}
    (resolved : fs.resolve false here filename = some location)
    (listed : fs.root.at location = some (.dir readable entries)) :
    fs.opened here filename = if readable then some (location, entries) else none := by
  cases readable <;> simp [opened, resolve_follow resolved listed, listed]

theorem entered_dotdot (listed : fs.root.at here = some (.dir readable entries)) :
    fs.entered here dotdot = some here.dropLast := by
  have located : (fs.root.at here).isSome := by rw [listed]; rfl
  obtain ⟨_, above, up⟩ := Node.at_dropLast fs.directory located
  simp [entered, resolve_dotdot listed, up]

end FileSystem

end resolution

end OsUnix.Kernel
