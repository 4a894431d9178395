import OsUnix.ProtectedMode.Handlers
import OsUnix.X86.Total

/-!
# What the handlers restore

A register that a handler writes without saving it shows in the interrupted code.
-/

namespace OsUnix.ProtectedMode
open X86

section operands

theorem saves_eax : eax.Saves (whole .eax) := saves_r32 (by decide)

theorem saves_ebx : ebx.Saves (whole .ebx) := saves_r32 (by decide)

theorem saves_ecx : ecx.Saves (whole .ecx) := saves_r32 (by decide)

theorem saves_edx : edx.Saves (whole .edx) := saves_r32 (by decide)

theorem saves_ebp : ebp.Saves (whole .ebp) := saves_r32 (by decide)

theorem saves_dx : dx.Saves {(.edx, .low)} := saves_r16 (by decide)

theorem writes_edi : edi.Writes (whole .edi) := writes_r32 (by decide)

theorem writes_bp : bp.Writes {(.ebp, .low)} := writes_r16 (by decide)

theorem writes_al : al.Writes {(.eax, .low)} := writes_low8 (by decide)

theorem writes_ah : ah.Writes {(.eax, .low)} := writes_high8 (by decide)

theorem writes_dl : dl.Writes {(.edx, .low)} := writes_low8 (by decide)

theorem writes_dh : dh.Writes {(.edx, .low)} := writes_high8 (by decide)

end operands

def digitParts : Finset Part := whole .eax ∪ {(.edx, .low)}

def printParts : Finset Part := digitParts ∪ whole .ecx ∪ whole .edi

def keyParts : Finset Part := whole .eax ∪ whole .ebx ∪ {(.ebp, .low), (.edx, .low)}

def digitRound : List Instr :=
  [mov dl al, and dl (imm 0x0F)] ++
  createNumber ++
  [mov (memory 16 .es fun m => m.reg .edi) dx, ror eax 4]

theorem prcyc1_eq : prcyc1 = digitRound ++ [sub edi (imm 2)] := rfl

theorem frame_createNumber {seg : SegReg → Segment} {W : Finset Part}
    (sub : {(.edx, .low)} ⊆ W) : Frame seg W (run createNumber) :=
  have letter := Frame.update writes_dl sub (· + ·) (imm (65 - 48 - 10))
  have digit := Frame.update writes_dl sub (· + ·) (imm 48)
  have colour := Frame.mov writes_dh sub (imm 0x46)
  (Frame.branch Frame.nil letter.single).cons (digit.cons colour.single)

section entered

variable (start : Interrupted)

abbrev Interrupted.seg : SegReg → Segment := start.machine.seg

theorem small : (start.seg .ss).limit + 1 < 2 ^ 32 := by
  rw [Interrupted.seg, start.stack]
  exact Nat.lt_of_lt_of_le (by decide : 0x100 < 0x101) (by decide)

theorem frame_video {W : Finset Part} (w : Nat) (offset : Machine → BitVec 32) (o : Operand w) :
    Frame start.seg W (mov (memory w .es offset) o) := by
  apply Frame.store
  intro m _
  have high := start.high
  have defined := start.defined
  rw [Interrupted.seg, start.stack, start.video]
  simp only [outPosition, asciiTable, time08, escape] at defined ⊢
  left
  have big : 0x100 < start.size := Nat.lt_of_lt_of_le (by decide) defined
  omega

theorem frame_variable {W : Finset Part} (w : Nat) (offset : BitVec 32) (o : Operand w)
    (low : 0x100 ≤ offset.toNat) (high : offset.toNat + w / 8 ≤ 0x500) :
    Frame start.seg W (mov (memory w start.data fun _ => offset) o) := by
  apply Frame.store
  intro m _
  have above := start.low
  rw [Interrupted.seg, start.stack]
  rcases start.placed with ⟨base, _⟩ | ⟨base, _⟩ <;> rw [base]
  · left
    simp only
    omega
  · right
    simp only
    omega

theorem frame_digitRound : Frame start.seg digitParts (run digitRound) := by
  have load : Frame start.seg digitParts (mov dl al) := Frame.mov writes_dl (by decide) _
  have mask : Frame start.seg digitParts (and dl (imm 0x0F)) :=
    Frame.update writes_dl (by decide) _ _
  have number : Frame start.seg digitParts (run createNumber) := frame_createNumber (by decide)
  have rotate : Frame start.seg digitParts (ror eax 4) :=
    Frame.update saves_eax.writes (by decide) _ _
  exact ((load.cons mask.single).append number).append
    ((frame_video start _ _ _).cons rotate.single)

theorem frame_prcyc1 : Frame start.seg printParts (run prcyc1) := by
  have step : Frame start.seg printParts (sub edi (imm 2)) :=
    Frame.update writes_edi (by decide) _ _
  rw [prcyc1_eq]
  exact ((frame_digitRound start).mono (by decide)).append step.single

theorem frame_myPrintEax : Frame start.seg printParts (run myPrintEax) := by
  have count : Frame start.seg printParts (mov ecx (imm 8)) :=
    Frame.mov saves_ecx.writes (by decide) _
  have place : Frame start.seg printParts (add edi (imm 172)) :=
    Frame.update writes_edi (by decide) _ _
  have body := count.cons (place.cons ((frame_prcyc1 start).loop (by decide)).single)
  exact (Frame.saved saves_ecx (small start)
    (Frame.saved saves_dx (small start) body)).mono (by decide)

theorem frame_newInt08 : Frame start.seg (whole .edi) (run (newInt08 start.data)) := by
  have count : Frame start.seg printParts (mov eax (variable32 start.data time08)) :=
    Frame.mov saves_eax.writes (by decide) _
  have place : Frame start.seg printParts (mov edi (imm 2)) := Frame.mov writes_edi (by decide) _
  have next : Frame start.seg printParts (inc eax) := Frame.update saves_eax.writes (by decide) _ _
  have body := ((count.cons place.single).append (frame_myPrintEax start)).append
    (next.cons (frame_variable start 32 time08 eax (by decide) (by decide)).single)
  have first := Frame.saved saves_ebp (small start)
    (Frame.saved saves_ecx (small start)
      (Frame.saved saves_dx (small start) body))
  have restored : ((printParts \ {(.edx, .low)}) \ whole .ecx) \ whole .ebp ⊆
      whole .eax ∪ whole .edi := by decide
  have command : Frame start.seg (whole .eax ∪ whole .edi) (mov al (imm 0x20)) :=
    Frame.mov writes_al (by decide) _
  have rest := (first.mono restored).append (command.cons (Frame.output 0x20 al).single)
  exact (Frame.saved saves_eax (small start) rest).mono (by decide)

theorem frame_printKey : Frame start.seg keyParts (run (printKey start.data)) := by
  have clear : Frame start.seg keyParts (xor ah ah) := Frame.update writes_ah (by decide) _ _
  have index : Frame start.seg keyParts (mov bp ax) := Frame.mov writes_bp (by decide) _
  have letter (o) : Frame start.seg keyParts (mov dl o) := Frame.mov writes_dl (by decide) o
  have place (o) : Frame start.seg keyParts (mov ebx o) := Frame.mov saves_ebx.writes (by decide) o
  have next : Frame start.seg keyParts (add ebx (imm 2)) :=
    Frame.update saves_ebx.writes (by decide) _ _
  have keep := frame_variable (W := keyParts) start 32 outPosition ebx (by decide) (by decide)
  exact clear.cons (index.cons ((letter _).cons ((place _).cons ((frame_video start _ _ _).cons
    (next.cons keep.single)))))

theorem frame_newInt09 : Frame start.seg ∅ (run (newInt09 start.data)) := by
  have read (port) : Frame start.seg keyParts (input al port) := Frame.input writes_al (by decide) _
  have leave := frame_variable (W := keyParts) start 8 escape (imm 1) (by decide) (by decide)
  have shown : Frame start.seg keyParts (branch (alAbove 0x80) [] (printKey start.data)) :=
    Frame.branch Frame.nil (frame_printKey start)
  have key : Frame start.seg keyParts (branch (alIs 0x1C)
      [mov (variable8 start.data escape) (imm 1)]
      [branch (alAbove 0x80) [] (printKey start.data)]) :=
    Frame.branch leave.single shown.single
  have mark : Frame start.seg keyParts (or al (imm 0x80)) := Frame.update writes_al (by decide) _ _
  have command : Frame start.seg keyParts (mov al (imm 0x20)) := Frame.mov writes_al (by decide) _
  have body := (read 0x60).cons (key.cons ((read 0x61).cons (mark.cons
    ((Frame.output 0x61 al).cons (command.cons (Frame.output 0x20 al).single)))))
  have kept := Frame.saved saves_eax (small start)
    (Frame.saved saves_ebx (small start)
      (Frame.saved saves_ebp (small start)
        (Frame.saved saves_edx (small start) body)))
  exact kept.mono (by decide)

section arrival

variable {e : Nat} {v v' : BitVec 32}

abbrev Position (e : Nat) (v : BitVec 32) : Machine → Prop := At start.seg .edi e v

theorem total_saved {o : Operand w} (saves : o.Saves P) (free : Disjoint (whole .edi) P)
    (room : w / 8 ≤ e) (top : e ≤ 0x100)
    (body : Total (Position start (e - w / 8) v) (run block) (Position start (e - w / 8) v')) :
    Total (Position start e v) (run (saved o block)) (Position start e v') := by
  have limit : (start.seg .ss).limit = 0xFF := congrArg Segment.limit start.stack
  exact Total.saved saves (small start) free (by decide) room (by omega) body

theorem total_createNumber :
    Total (Position start e v) (run createNumber) (Position start e v) := by
  have free : Disjoint (whole .edi) {(.edx, .low)} := by decide
  have letter : Total (Position start e v) (add dl (imm (65 - 48 - 10))) (Position start e v) :=
    Total.update writes_dl free _ (fun _ => ⟨_, rfl⟩) fun _ => ⟨_, rfl⟩
  have digit : Total (Position start e v) (add dl (imm 48)) (Position start e v) :=
    Total.update writes_dl free _ (fun _ => ⟨_, rfl⟩) fun _ => ⟨_, rfl⟩
  have colour : Total (Position start e v) (mov dh (imm 0x46)) (Position start e v) :=
    Total.mov writes_dh free fun _ _ => ⟨_, rfl⟩
  exact (Total.branch Total.nil letter.single).cons (digit.cons colour.single)

theorem total_digitRound (shown : v.toNat ≤ 4000) :
    Total (Position start e v) (run digitRound) (Position start e v) := by
  have free : Disjoint (whole .edi) {(.edx, .low)} := by decide
  have load : Total (Position start e v) (mov dl al) (Position start e v) :=
    Total.mov writes_dl free fun _ _ => ⟨_, rfl⟩
  have mask : Total (Position start e v) (and dl (imm 0x0F)) (Position start e v) :=
    Total.update writes_dl free _ (fun _ => ⟨_, rfl⟩) fun _ => ⟨_, rfl⟩
  have draw : Total (Position start e v) (mov (memory 16 .es fun m => m.reg .edi) dx)
      (Position start e v) := by
    apply Total.of_frame (frame_video start _ _ _) (Finset.disjoint_empty_right _)
    intro s place
    apply store_fits
    dsimp only
    rw [place.reg, place.seg, Interrupted.seg, start.video]
    exact Nat.le_trans (Nat.add_le_add_right shown 2) (by decide)
  have rotate : Total (Position start e v) (ror eax 4) (Position start e v) :=
    Total.update saves_eax.writes (by decide) _ (fun _ => ⟨_, rfl⟩) fun _ => ⟨_, rfl⟩
  exact ((load.cons mask.single).append (total_createNumber start)).append
    (draw.cons rotate.single)

structure Printing (e : Nat) (c : BitVec 32) (m : Machine) : Prop where
  counter : m.reg .ecx = c
  bound : c.toNat ≤ 8
  position : Position start e (158 + 2 * c) m

theorem total_prcyc1 (c : BitVec 32) (nonzero : c ≠ 0) : Total (Printing start e c) (run prcyc1)
    fun t => t.reg .ecx = c ∧ Printing start e (c - 1) (t.set .ecx (c - 1)) := by
  intro s printing
  have bound := printing.bound
  have less := toNat_pred nonzero
  have shown : (158 + 2 * c).toNat ≤ 4000 := by bv_omega
  obtain ⟨u, done, place⟩ := total_digitRound start shown s printing.position
  have counter := (frame_digitRound start s u printing.position.seg done).reg
    (by decide : Disjoint (whole .ecx) digitParts)
  rw [printing.counter] at counter
  refine ⟨u.set .edi (u.reg .edi - 2), ?_, ?_, rfl, ?_, place.seg, place.esp, ?_⟩
  · rw [prcyc1_eq, run_append, done]
    rfl
  · exact counter
  · omega
  · rw [Machine.set_other _ _ (by decide), Machine.set_self, place.reg]
    bv_omega

theorem total_myPrintEax (room : 6 ≤ e) (top : e ≤ 0x100) :
    Total (Position start e 2) (run myPrintEax) (Position start e 158) := by
  have prepared (d : Nat) : Total (Position start d 2) (run [mov ecx (imm 8), add edi (imm 172)])
      (Printing start d 8) := by
    intro s place
    refine ⟨_, rfl, rfl, by decide, place.seg, place.esp, ?_⟩
    rw [Machine.set_self, Machine.set_other _ _ (by decide), place.reg]
    rfl
  have printed (d : Nat) : Total (Position start d 2)
      (run ([mov ecx (imm 8), add edi (imm 172)] ++ [loop prcyc1])) (Position start d 158) := by
    intro s place
    obtain ⟨t, done, final⟩ :=
      (prepared d).append (Total.loop (total_prcyc1 start) (by decide)).single s place
    exact ⟨t, done, final.position⟩
  exact total_saved start saves_ecx (by decide) (by omega) top
    (total_saved start saves_dx (by decide) (by omega) (by omega) (printed _))

theorem fits_variable {m : Machine} (segments : m.seg = start.seg)
    (inside : last ≤ outPosition.toNat + 4) : last ≤ (m.seg start.data).limit + 1 := by
  have defined := start.defined
  rw [segments]
  rcases start.placed with ⟨_, bound⟩ | ⟨_, bound⟩ <;> rw [Interrupted.seg, bound]
  · exact Nat.le_trans (Nat.le_trans inside defined) (Nat.le_add_of_sub_le (Nat.le_refl _))
  · exact Nat.le_trans inside (by decide)

theorem fits_time08 {m : Machine} (segments : m.seg = start.seg) :
    time08.toNat + 32 / 8 ≤ (m.seg start.data).limit + 1 :=
  fits_variable start segments (by decide)

theorem total_newInt08 (room : 20 ≤ e) (top : e ≤ 0x100) :
    Total (Position start e v) (run (newInt08 start.data)) (Position start e 158) := by
  have free : Disjoint (whole .edi) (whole .eax) := by decide
  have count (d u) : Total (Position start d u) (mov eax (variable32 start.data time08))
      (Position start d u) :=
    Total.mov saves_eax.writes free fun s place => load_fits (fits_time08 start place.seg)
  have position (d u) : Total (Position start d u) (mov edi (imm 2)) (Position start d 2) :=
    fun s place => ⟨_, rfl, place.seg, place.esp, s.set_self _ _⟩
  have next (d u) : Total (Position start d u) (inc eax) (Position start d u) :=
    Total.update saves_eax.writes free _ (fun _ => ⟨_, rfl⟩) fun _ => ⟨_, rfl⟩
  have keep (d u) : Total (Position start d u) (mov (variable32 start.data time08) eax)
      (Position start d u) := by
    apply Total.of_frame (frame_variable start 32 time08 eax (by decide) (by decide))
      (Finset.disjoint_empty_right _)
    intro s place
    exact store_fits _ (fits_time08 start place.seg)
  have command (d u) : Total (Position start d u) (mov al (imm 0x20)) (Position start d u) :=
    Total.mov writes_al (by decide) fun _ _ => ⟨_, rfl⟩
  have sent (d u) : Total (Position start d u) (output 0x20 al) (Position start d u) :=
    Total.of_frame (Frame.output 0x20 al) (Finset.disjoint_empty_right _) fun _ _ => ⟨_, rfl⟩
  have body (d) (room : 6 ≤ d) (top : d ≤ 0x100) :=
    (((count d v).cons (position d v).single).append (total_myPrintEax start room top)).append
      ((next d 158).cons (keep d 158).single)
  have first (d) (room : 16 ≤ d) (top : d ≤ 0x100) :=
    total_saved start saves_ebp (by decide) (Nat.le_trans (by decide) room) top
      (total_saved start saves_ecx (by decide) (by omega) (by omega)
        (total_saved start saves_dx (by decide) (by omega) (by omega)
          (body (d - 32 / 8 - 32 / 8 - 16 / 8) (by omega) (by omega))))
  exact total_saved start saves_eax free (by omega) top
    ((first (e - 32 / 8) (by omega) (by omega)).append
      ((command _ 158).cons (sent _ 158).single))

end arrival

/-- At `iretd` every register holds what it held when the handler was entered. -/
def Transparent (handler : Handler) : Prop :=
  ∀ t, run (handler.code start.data) start.machine = some t →
    (∀ r, t.reg r = start.machine.reg r) ∧ ∀ s, t.seg s = start.machine.seg s

theorem transparent_newInt09 : Transparent start .newInt09 := by
  intro t done
  have kept := frame_newInt09 start start.machine t rfl done
  exact ⟨fun r => kept.reg (Finset.disjoint_empty_right _), congrFun kept.seg⟩

theorem transparent_newInt08 :
    Transparent start .newInt08 ↔ start.machine.reg .edi = 158 := by
  obtain ⟨t, done, arrived⟩ :=
    total_newInt08 start start.room start.top start.machine ⟨rfl, rfl, rfl⟩
  have kept := frame_newInt08 start start.machine t rfl done
  constructor
  · intro transparent
    rw [← (transparent t done).1 .edi, arrived.reg]
  · intro known t' done'
    cases Option.some.inj (done.symm.trans done')
    refine ⟨fun r => ?_, congrFun kept.seg⟩
    by_cases moved : r = .edi
    · rw [moved, arrived.reg, known]
    · apply kept.reg
      revert moved
      cases r <;> decide

/-- The timer's handler is transparent exactly when EDI already holds the position where its
printing ends; the keyboard's always is. -/
theorem transparent_iff (handler : Handler) :
    Transparent start handler ↔ handler = .newInt09 ∨ start.machine.reg .edi = 158 := by
  cases handler with
  | newInt08 => simp [transparent_newInt08]
  | newInt09 => simp [transparent_newInt09]

end entered

def tick (data : SegReg) (known : data = .cs ∨ data = .ds) : Interrupted where
  machine :=
    { reg := fun
        | .eax => 8
        | .ebx => 0x100001
        | .ecx => 0xFFEFFFFE
        | .edx => 0xAA
        | .edi => 29
        | .esp => 0x100 - 4 - 4 - 12
        | .esi | .ebp => 0
      seg := fun
        | .cs => ⟨24, 0x10000, 0xFFF⟩
        | .ds | .fs => ⟨8, 0, 0xFFFFFFFF⟩
        | .es => ⟨48, 0xB8000, 0xF0F9F⟩
        | .gs => ⟨0, 0, 0⟩
        | .ss => ⟨40, 0x10000, 0x100 - 1⟩
      mem := fun _ => 0
      port := fun _ => 0
      sent := [] }
  base := 0x10000
  size := 0x1000
  data
  low := by decide
  high := by decide
  defined := by decide
  stack := rfl
  video := rfl
  placed := by
    rcases known with rfl | rfl
    · exact Or.inl ⟨rfl, rfl⟩
    · exact Or.inr ⟨rfl, rfl⟩
  room := by decide
  top := by decide

theorem transparent_fails : ¬ Transparent (tick .cs (Or.inl rfl)) .newInt08 ∧
    ¬ Transparent (tick .ds (Or.inr rfl)) .newInt08 := by
  constructor
  · rw [transparent_newInt08]
    decide
  · rw [transparent_newInt08]
    decide

end OsUnix.ProtectedMode
