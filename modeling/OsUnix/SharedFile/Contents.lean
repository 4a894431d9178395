import OsUnix.SharedFile.Writers

/-!
# What the writers leave

Every thread begins at the start of the file. What one of them writes stands where the others write
theirs, so that no more than one half of the alphabet is left.
-/

namespace OsUnix.SharedFile
open Kernel Concurrency

variable {ι : Type*} [DecidableEq ι] {size : Nat} {filenums : ι → Int} {file : List Nat}
  {s t : State ι} {k : ι}

structure Written (filenums : ι → Int) (s : State ι) : Prop where
  bytes : InPlace (fun k => letters (filenums k)) s.shared
  length : ∃ k, s.shared.length ≤ (letters (filenums k)).length

omit [DecidableEq ι] in
theorem Written.pwrite {fs : Output Nat} {c : Nat} {g : List Nat} (was : Written filenums s)
    (at_k : s.locals k = .loop c fs) (given : (s.locals k).Given (filenums k))
    (written : g = pwrite s.shared fs.offset fs.buffer) :
    InPlace (fun k => letters (filenums k)) g ∧ ∃ k, g.length ≤ (letters (filenums k)).length := by
  subst written
  rw [at_k] at given
  obtain ⟨-, last, gave⟩ := given
  have begins : lettersBefore (filenums k) c <+: letters (filenums k) := letters_begin last
  refine ⟨was.bytes.pwrite gave begins, ?_⟩
  by_cases nothing : fs.buffer = []
  · rw [nothing, pwrite_nil]
    exact was.length
  · rw [length_pwrite nothing]
    obtain ⟨j, bound⟩ := was.length
    have own := begins.length_le
    rw [← gave.offset_le] at own
    rcases Nat.le_total s.shared.length (fs.offset + fs.buffer.length) with less | more
    · exact ⟨k, by omega⟩
    · exact ⟨j, by omega⟩

/-- Once a thread has opened the file, every byte is a zero or a letter of some thread at its place
among that thread's letters, and the file is no longer than what some thread writes. -/
theorem bytes_in_place (h : (system size filenums file).Reachable s)
    (opened : ∃ k, s.locals k ≠ .fopen) : Written filenums s := by
  suffices inv : (∀ k, s.locals k = .fopen) ∨ Written filenums s by
    obtain ⟨k, other⟩ := opened
    exact inv.resolve_left fun all => other (all k)
  apply h.preserved (I := fun s => (∀ k, s.locals k = .fopen) ∨ Written filenums s)
  · exact .inl fun _ => rfl
  · intro s k t reach inv next
    obtain ⟨g, l, a, move, rfl⟩ := next_cases next
    have gave := given reach k
    generalize before : s.locals k = l₀ at move
    right
    have opened (other : l₀ ≠ .fopen) : Written filenums s :=
      inv.resolve_left fun all => other (before ▸ all k)
    cases move with
    | fopen => exact ⟨fun p c found => by simp at found, k, Nat.zero_le _⟩
    | statOpened => exact ⟨(opened nofun).bytes, (opened nofun).length⟩
    | keep more other => exact ⟨(opened nofun).bytes, (opened nofun).length⟩
    | @put c fs more mine =>
        rcases Output.put_file size fs c s.shared with same | flushed
        · rw [same]
          exact ⟨(opened nofun).bytes, (opened nofun).length⟩
        · obtain ⟨bytes, length⟩ := (opened nofun).pwrite before gave flushed
          exact ⟨bytes, length⟩
    | fclose last =>
        obtain ⟨bytes, length⟩ := (opened nofun).pwrite before gave rfl
        exact ⟨bytes, length⟩
    | statClosed => exact ⟨(opened nofun).bytes, (opened nofun).length⟩

def Local.isOpen : Local → Bool
  | .statOpened _ | .loop _ _ => true
  | _ => false

def nums (k : Fin 2) : Int := k.val + 1

theorem bytes_in_place_mixed : ∃ s : State (Fin 2),
    s.shared = [98, 100, 102, 104, 105, 107, 109, 111] ∧ Written nums s := by
  obtain ⟨s, reach, mixed⟩ := System.exists_reachable_of_exec (M := system 4 nums [])
    (List.replicate 12 0 ++ List.replicate 12 1 ++ List.replicate 7 0)
    (fun s => s.shared == [98, 100, 102, 104, 105, 107, 109, 111] &&
      (s.locals 0).isOpen) (by decide)
  simp only [Bool.and_eq_true, beq_iff_eq] at mixed
  refine ⟨s, mixed.1, bytes_in_place reach ⟨0, fun start => ?_⟩⟩
  rw [start] at mixed
  cases mixed.2

def Quiet (e : ι × Action) : Prop := e.2 ≠ .fopen ∧ e.2 ≠ .fclose

def LastClose (filenums : ι → Int) (s : State ι) : Prop :=
  ∃ k before after, s.trace = before ++ (k, .fclose) :: after ∧ (∀ e ∈ after, Quiet e) ∧
    s.shared = letters (filenums k)

inductive Content (filenums : ι → Int) (s : State ι) : Prop
  | untouched (all : ∀ k, s.locals k = .fopen)
  | emptied (empty : s.shared = []) (still : ∃ k, (s.locals k).isOpen = true)
  | closed (last : LastClose filenums s)

def Local.Unwritten : Local → Prop
  | .loop _ fs => fs.offset = 0
  | _ => True

theorem length_letters {filenum : Int} (numbered : filenum = 1 ∨ filenum = 2) :
    (letters filenum).length = 13 := by
  rcases numbered with rfl | rfl <;> decide

theorem length_lettersBefore {filenum : Int} {c : Nat} (numbered : filenum = 1 ∨ filenum = 2)
    (last : c ≤ 123) : (lettersBefore filenum c).length ≤ 13 := by
  rw [← length_letters numbered]
  exact (letters_begin last).length_le

omit [DecidableEq ι] in
theorem room_of_put {filenum : Int} {c : Nat} {fs : Output Nat} (room : 13 ≤ size)
    (numbered : filenum = 1 ∨ filenum = 2) (more : c ≤ 122) (mine : written filenum c = true)
    (given : (Local.loop c fs).Given filenum) : fs.buffer.length < size := by
  obtain ⟨started, -, gave⟩ := given
  have bound := length_lettersBefore (c := c + 1) numbered (by omega)
  rw [lettersBefore_succ started, if_pos mine, List.length_append, List.length_singleton,
    ← gave.offset_le] at bound
  omega

theorem unwritten (numbered : ∀ k, filenums k = 1 ∨ filenums k = 2) (room : 13 ≤ size)
    (h : (system size filenums file).Reachable s) (k : ι) : (s.locals k).Unwritten := by
  refine (h.each (Q := fun k l => l.Given (filenums k) ∧ l.Unwritten)
    (fun _ => ⟨trivial, trivial⟩) ?_ k).2
  rintro k g l g' l' a step ⟨given, unwritten⟩
  have move := move_of_step step
  refine ⟨move.given given, ?_⟩
  cases move with
  | statOpened =>
      obtain ⟨sent, empty, length⟩ := given
      obtain ⟨rfl, -⟩ := List.append_eq_nil_iff.mp empty.symm
      exact length.symm
  | keep more other => exact unwritten
  | put more mine =>
      rw [Output.put_buffered (room_of_put room (numbered k) more mine given)]
      exact unwritten
  | _ => trivial

theorem LastClose.quiet (last : LastClose filenums s) {l : Local} {a : Action}
    (quiet : Quiet (k, a)) : LastClose filenums (s.move k s.shared l a) := by
  obtain ⟨j, before, after, trace, calm, file⟩ := last
  refine ⟨j, before, after ++ [(k, a)], ?_, ?_, file⟩
  · simp [trace]
  · intro e mem
    rcases List.mem_append.mp mem with earlier | now
    · exact calm e earlier
    · exact List.mem_singleton.mp now ▸ quiet

theorem Content.quiet (content : Content filenums s) {l : Local} {a : Action}
    (quiet : Quiet (k, a)) (started : s.locals k ≠ .fopen)
    (same : (s.locals k).isOpen = true → l.isOpen = true) :
    Content filenums (s.move k s.shared l a) := by
  cases content with
  | untouched all => exact absurd (all k) started
  | emptied empty still => exact .emptied empty (System.exists_update still same)
  | closed last => exact .closed (last.quiet quiet)

theorem content (numbered : ∀ k, filenums k = 1 ∨ filenums k = 2) (room : 13 ≤ size)
    (h : (system size filenums file).Reachable s) : Content filenums s := by
  apply h.preserved (I := Content filenums)
  · exact .untouched fun _ => rfl
  · intro s k t reach content next
    obtain ⟨g, l, a, move, rfl⟩ := next_cases next
    have gave := given reach k
    have unsent := unwritten numbered room reach k
    generalize before : s.locals k = l₀ at move
    cases move with
    | fopen => exact .emptied rfl (System.exists_update_self rfl)
    | statOpened => exact content.quiet ⟨nofun, nofun⟩ (by simp [before]) fun _ => rfl
    | keep more other => exact content.quiet ⟨nofun, nofun⟩ (by simp [before]) fun _ => rfl
    | put more mine =>
        rw [before] at gave
        rw [Output.put_buffered (room_of_put room (numbered k) more mine gave)]
        exact content.quiet ⟨nofun, nofun⟩ (by simp [before]) fun _ => rfl
    | @fclose c fs last =>
        rw [before] at gave unsent
        obtain ⟨-, bound, sent, text, length⟩ := gave
        have here : fs.offset = 0 := unsent
        rw [here, List.length_eq_zero_iff] at length
        obtain rfl : c = 123 := by omega
        have all : letters (filenums k) = fs.buffer := by rw [letters, text, length]; rfl
        refine .closed ⟨k, s.trace, [], rfl, by simp, ?_⟩
        obtain ⟨j, short⟩ := (bytes_in_place reach ⟨k, by simp [before]⟩).length
        have covers : s.shared.length ≤ fs.buffer.length := by
          rw [← all, length_letters (numbered k)]
          rwa [length_letters (numbered j)] at short
        rw [Config.move_shared, all, Output.flush, here]
        exact pwrite_whole covers
    | statClosed =>
        exact content.quiet ⟨nofun, nofun⟩ (by simp [before]) (by simp [before, Local.isOpen])

theorem stat_sizes (numbered : ∀ k, filenums k = 1 ∨ filenums k = 2) (room : 13 ≤ size)
    (h : (system size filenums file).Reachable s) :
    ∀ k n, (k, Action.stat n) ∈ s.trace → n = 0 ∨ n = 13 := by
  apply h.preserved
    (I := fun s => ∀ k n, (k, Action.stat n) ∈ s.trace → n = 0 ∨ n = 13) (by simp)
  intro s k t reach inv next j n mem
  obtain ⟨g, l, a, move, rfl⟩ := next_cases next
  rw [Config.move_trace, List.mem_append, List.mem_singleton] at mem
  rcases mem with earlier | now
  · exact inv j n earlier
  · obtain ⟨rfl, rfl⟩ := Prod.mk.inj now
    have started : s.locals j ≠ .fopen := by
      intro start
      rw [start] at move
      cases move
    have size_eq : n = s.shared.length := by
      generalize s.locals j = l₀ at move
      cases move <;> rfl
    rw [size_eq]
    cases content numbered room reach with
    | untouched all => exact absurd (all j) started
    | emptied empty _ => exact .inl (by rw [empty]; rfl)
    | closed last =>
        obtain ⟨i, -, -, -, -, file⟩ := last
        exact .inr (by rw [file, length_letters (numbered i)])

omit [DecidableEq ι] in
theorem returned_of_none {filenum : Int} {l : Local}
    (blocked : writeToFile size filenum file l = none) : l = .returned := by
  cases l with
  | returned => rfl
  | loop c fs => by_cases more : c ≤ 122 <;> simp [writeToFile, more] at blocked
  | _ => cases blocked

/-- Whatever the order of the steps, the file ends as one half of the alphabet, that of the thread
that closes it last, and every size that a thread prints is 0 or 13. -/
theorem last_close_wins (size : Nat) (filenums : ι → Int) (file : List Nat) (s : State ι)
    (numbered : ∀ k, filenums k = 1 ∨ filenums k = 2) (room : 13 ≤ size)
    (h : (system size filenums file).Reachable s) :
    (∀ k n, (k, Action.stat n) ∈ s.trace → n = 0 ∨ n = 13) ∧
      (Nonempty ι → (system size filenums file).Terminal s → LastClose filenums s) := by
  refine ⟨stat_sizes numbered room h, fun ⟨k⟩ ended => ?_⟩
  have returned (j : ι) : s.locals j = .returned :=
    returned_of_none (Option.map_eq_none_iff.mp (ended j))
  cases content numbered room h with
  | untouched all => cases (all k).symm.trans (returned k)
  | emptied empty still =>
      obtain ⟨j, still⟩ := still
      rw [returned j] at still
      cases still
  | closed last => exact last

theorem last_close_wins_main : ∃ s : State (Fin 2), s.shared = letters 2 ∧
    (∀ k n, (k, Action.stat n) ∈ s.trace → n = 0 ∨ n = 13) ∧ LastClose nums s := by
  obtain ⟨s, reach, ended⟩ := System.exists_reachable_of_exec (M := system 4096 nums [])
    (List.replicate 30 0 ++ List.replicate 30 1)
    (fun s => s.locals 0 == .returned && s.locals 1 == .returned && s.shared == letters 2)
    (by decide)
  simp only [Bool.and_eq_true, beq_iff_eq] at ended
  obtain ⟨⟨first, second⟩, file⟩ := ended
  obtain ⟨sizes, last⟩ := last_close_wins 4096 nums [] s (by decide) (by decide) reach
  refine ⟨s, file, sizes, last ⟨0⟩ ?_⟩
  rw [System.Terminal, Fin.forall_fin_two]
  exact ⟨by simp [System.next, system, first, writeToFile],
    by simp [System.next, system, second, writeToFile]⟩

end OsUnix.SharedFile
