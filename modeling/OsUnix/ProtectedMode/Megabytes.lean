import OsUnix.ProtectedMode.MemorySize

/-!
# Counting the memory

The loop of `compute_memory`, whatever comes between its instructions without disturbing it.
-/

namespace OsUnix.ProtectedMode
open X86

section board

variable {board : Board} {m : Machine}

def Board.Settled (board : Board) (m : Machine) : Prop :=
  ∀ x, board.size ≤ x → m.mem x = board.floating

theorem settle_eq (settled : board.Settled m) : board.settle m = m := by
  have same : (fun x => if x < board.size then m.mem x else board.floating) = m.mem := by
    funext x
    split
    · rfl
    · exact (settled x (by omega)).symm
  rw [Board.settle, same]

theorem Board.Settled.put (settled : board.Settled m) (v : BitVec w)
    (inside : a + w / 8 ≤ board.size) : board.Settled (m.put a v) := by
  intro x behind
  exact (write_outside (by omega)).trans (settled x behind)

theorem settle_put (settled : board.Settled m) (v : BitVec w) (behind : board.size ≤ a) :
    board.settle (m.put a v) = m := by
  refine Eq.trans ?_ (settle_eq settled)
  simp only [Board.settle, Machine.put]
  congr 1
  funext x
  split
  · rename_i inside
    exact write_outside (by omega)
  · rfl

theorem settle_undisturbed (same : Undisturbed R T s t) :
    Undisturbed R T (board.settle s) (board.settle t) where
  seg := same.seg
  esp := same.esp
  reg := same.reg
  mem x kept := by
    simp only [Board.settle]
    split
    · exact same.mem x kept
    · rfl
  stack x low high := by
    simp only [Board.settle]
    split
    · exact same.stack x low high
    · rfl

end board

def withDh (e : BitVec 32) (d : BitVec 8) : BitVec 32 :=
  e.extractLsb' 16 16 ++ (d ++ e.extractLsb' 0 8)

theorem dl_withDh (e : BitVec 32) (d : BitVec 8) :
    (withDh e d).extractLsb' 0 8 = e.extractLsb' 0 8 := by
  rw [withDh, BitVec.extractLsb'_append_eq_of_add_le (by decide)]
  exact BitVec.extractLsb'_append_eq_right

theorem dh_withDh (e : BitVec 32) (d : BitVec 8) : (withDh e d).extractLsb' 8 8 = d := by
  rw [withDh, BitVec.extractLsb'_append_eq_of_add_le (by decide)]
  exact BitVec.extractLsb'_append_eq_left

section scanning

variable (sizing : Sizing)

abbrev Sizing.Path (k : Nat) (p q : Point) : Prop :=
  X86.Path Working sizing.written (computeMemory sizing.gdt) sizing.board.settle k p q

def scan (m : Machine) (b c e : BitVec 32) : Machine :=
  ((m.set .ebx b).set .ecx c).set .edx e

@[simp] theorem scan_ecx (m : Machine) (b c e : BitVec 32) : (scan m b c e).reg .ecx = c := rfl

theorem scan_set_edx (m : Machine) (b c e e' : BitVec 32) :
    (scan m b c e).set .edx e' = scan m b c e' :=
  Machine.set_set _ _ _ _

theorem scan_set_ecx (m : Machine) (b c e c' : BitVec 32) :
    (scan m b c e).set .ecx c' = scan m b c' e := by
  rw [scan, Machine.set_comm _ _ _ (by decide), Machine.set_set]
  rfl

theorem scan_set_ebx (m : Machine) (b c e b' : BitVec 32) :
    (scan m b c e).set .ebx b' = scan m b' c e := by
  rw [scan, Machine.set_comm _ _ _ (by decide), Machine.set_comm (m.set .ebx b) _ _ (by decide),
    Machine.set_set]
  rfl

theorem path_plain {f : Instr} (line : (computeMemory sizing.gdt)[pc]? = some (.plain f))
    (done : f m = some t) (respects : Respects Working sizing.written f m)
    (settled : sizing.board.Settled t) (rest : sizing.Path k ⟨pc + 1, t⟩ q) :
    sizing.Path (k + 1) ⟨pc, m⟩ q := by
  have step : (Line.plain f).step ⟨pc, m⟩ = some ⟨pc + 1, t⟩ :=
    Option.bind_eq_some_iff.mpr ⟨t, done, rfl⟩
  refine .step line step (Line.respects_plain respects) ?_
  rwa [settle_eq settled]

theorem path_jump {condition : Machine → Option Bool}
    (line : (computeMemory sizing.gdt)[pc]? = some (.jump condition target))
    (decided : condition m = some jumps)
    (decides : ∀ t, Undisturbed Working sizing.written m t → condition t = condition m)
    (settled : sizing.board.Settled m)
    (rest : sizing.Path k ⟨if jumps then target else pc + 1, m⟩ q) :
    sizing.Path (k + 1) ⟨pc, m⟩ q := by
  have step : (Line.jump condition target).step ⟨pc, m⟩ =
      some ⟨if jumps then target else pc + 1, m⟩ :=
    Option.bind_eq_some_iff.mpr ⟨jumps, decided, rfl⟩
  refine .step line step (Line.respects_jump decides) ?_
  rwa [settle_eq settled]

theorem path_loop (line : (computeMemory sizing.gdt)[pc]? = some (.loop target))
    (settled : sizing.board.Settled m)
    (rest : sizing.Path k ⟨if m.reg .ecx - 1 = 0 then pc + 1 else target,
      m.set .ecx (m.reg .ecx - 1)⟩ q) :
    sizing.Path (k + 1) ⟨pc, m⟩ q := by
  have step : (Line.loop target).step ⟨pc, m⟩ =
      some ⟨if m.reg .ecx - 1 = 0 then pc + 1 else target, m.set .ecx (m.reg .ecx - 1)⟩ := rfl
  refine .step line step (Line.respects_loop (by decide)) ?_
  rwa [settle_eq (m := m.set .ecx (m.reg .ecx - 1)) settled]

theorem differs_of_reads {d o : Operand w} (reads : d.Reads R T m) (reads' : o.Reads R T m)
    (t : Machine) (same : Undisturbed R T m t) : differs d o t = differs d o m := by
  rw [differs, differs, reads t same, reads' t same]

structure Flat (m : Machine) : Prop where
  ds : m.seg .ds = ⟨8, 0, 0xFFFFFFFF⟩
  settled : sizing.board.Settled m

variable {sizing} {m : Machine} {b c e : BitVec 32}

theorem tested_get (ds : m.seg .ds = ⟨8, 0, 0xFFFFFFFF⟩) (at_b : m.reg .ebx = b) :
    tested.get m = some (m.mem b.toNat) := by
  subst at_b
  have fits : (m.reg .ebx).toNat + 8 / 8 ≤ (m.seg .ds).limit + 1 := by
    rw [ds]
    exact (m.reg .ebx).isLt
  have loaded : tested.get m = _ := Machine.load_eq fits
  rw [loaded, word_byte, ds, Nat.zero_add]

theorem tested_set (ds : m.seg .ds = ⟨8, 0, 0xFFFFFFFF⟩) (at_b : m.reg .ebx = b) (v : BitVec 8) :
    tested.set v m = some (m.put b.toNat v) := by
  subst at_b
  have fits : (m.reg .ebx).toNat + 8 / 8 ≤ (m.seg .ds).limit + 1 := by
    rw [ds]
    exact (m.reg .ebx).isLt
  have stored : tested.set v m = _ := Machine.store_eq v fits
  rw [stored, ds, Nat.zero_add]

variable (sizing) in
theorem tested_reads (ds : m.seg .ds = ⟨8, 0, 0xFFFFFFFF⟩) (at_b : m.reg .ebx = b)
    (high : 2 ^ 20 ≤ b.toNat) : tested.Reads Working sizing.written m := by
  apply reads_at (by decide)
  intro x low last inside
  have below := sizing.below x inside
  rw [ds, at_b] at low
  simp only at low
  omega

theorem tested_carries : tested.Carries Working sizing.written m := carries_at (by decide)

theorem path_load (flat : Flat sizing m) (high : 2 ^ 20 ≤ b.toNat)
    (rest : sizing.Path k ⟨7, scan m b c (withDh e (m.mem b.toNat))⟩ q) :
    sizing.Path (k + 1) ⟨check, scan m b c e⟩ q := by
  have load : mov dh tested (scan m b c e) = some (scan m b c (withDh e (m.mem b.toNat))) := by
    rw [mov, tested_get (m := scan m b c e) flat.ds rfl]
    exact congrArg some (scan_set_edx m b c e _)
  apply path_plain sizing rfl load _ flat.settled rest
  exact Respects.mov (tested_reads sizing flat.ds rfl high) (carries_high8 (by decide) (by decide))

theorem store_pattern (flat : Flat sizing m) (low : e.extractLsb' 0 8 = 0xAA) :
    mov tested dl (scan m b c e) = some ((scan m b c e).put b.toNat 0xAA#8) := by
  have value : dl.get (scan m b c e) = some 0xAA#8 := congrArg some low
  rw [mov, value]
  exact tested_set (m := scan m b c e) flat.ds rfl _

theorem path_compare (flat : Flat sizing m) (at_b : m.reg .ebx = b) (high : 2 ^ 20 ≤ b.toNat)
    (low : (m.reg .edx).extractLsb' 0 8 = 0xAA) (seen : m.mem b.toNat = v)
    (rest : sizing.Path k ⟨if v != 0xAA#8 then endOfMemory else 9, m⟩ q) :
    sizing.Path (k + 1) ⟨8, m⟩ q := by
  have value : dl.get m = some 0xAA#8 := congrArg some low
  have compared : differs tested dl m = some (v != 0xAA#8) := by
    rw [differs, tested_get flat.ds at_b, value, seen]
    rfl
  have decides := differs_of_reads (tested_reads sizing flat.ds at_b high)
    (reads_low8 (r := .edx) (by decide))
  exact path_jump sizing rfl compared decides flat.settled rest

theorem path_next (flat : Flat sizing m) (back : e.extractLsb' 8 8 = m.mem b.toNat) :
    sizing.Path 3 ⟨9, (scan m b c e).put b.toNat 0xAA#8⟩
      ⟨if c - 1 = 0 then endOfMemory else check, scan m (b + 1) (c - 1) e⟩ := by
  have restore : mov tested dh ((scan m b c e).put b.toNat 0xAA#8) = some (scan m b c e) := by
    have value : dh.get ((scan m b c e).put b.toNat 0xAA#8) = some (m.mem b.toNat) :=
      congrArg some back
    rw [mov, value]
    exact (tested_set (m := (scan m b c e).put b.toNat 0xAA#8) flat.ds rfl _).trans
      (congrArg some (Machine.put_back (scan m b c e) b.toNat 0xAA#8))
  have next : inc ebx (scan m b c e) = some (scan m (b + 1) c e) :=
    congrArg some (scan_set_ebx m b c e (b + 1))
  apply path_plain sizing rfl restore _ flat.settled
  · apply path_plain sizing rfl next _ flat.settled
    · apply path_loop (m := scan m (b + 1) c e) sizing rfl flat.settled
      rw [scan_ecx, scan_set_ecx]
      exact .refl _
    · exact Respects.update (reads_r32 (by decide)) (reads_imm 1)
        (carries_r32 (by decide) (by decide)) _
  · exact Respects.mov (reads_high8 (by decide)) tested_carries

theorem path_round (flat : Flat sizing m) (high : 2 ^ 20 ≤ b.toNat)
    (inside : b.toNat < sizing.board.size) (pattern : e.extractLsb' 0 8 = 0xAA) :
    sizing.Path 6 ⟨check, scan m b c e⟩
      ⟨if c - 1 = 0 then endOfMemory else check,
        scan m (b + 1) (c - 1) (withDh e (m.mem b.toNat))⟩ := by
  apply path_load flat high
  have low := dl_withDh e (m.mem b.toNat)
  have back := dh_withDh e (m.mem b.toNat)
  generalize withDh e (m.mem b.toNat) = e' at low back ⊢
  rw [pattern] at low
  have stored : Flat sizing ((scan m b c e').put b.toNat 0xAA#8) :=
    ⟨flat.ds, Board.Settled.put flat.settled _ inside⟩
  have seen : ((scan m b c e').put b.toNat 0xAA#8).mem b.toNat = 0xAA#8 := by
    simp [Machine.put, write]
  apply path_plain sizing rfl (store_pattern flat low) _ stored.settled
  · apply path_compare stored rfl high low seen
    exact path_next flat back
  · exact Respects.mov (reads_low8 (by decide)) tested_carries

theorem floating_ne (board : Board) : board.floating ≠ 0xAA := by
  rcases board.constant with zero | ones
  · rw [zero]
    decide
  · rw [ones]
    decide

theorem path_last (flat : Flat sizing m) (behind : sizing.board.size ≤ b.toNat)
    (pattern : e.extractLsb' 0 8 = 0xAA) :
    sizing.Path 3 ⟨check, scan m b c e⟩
      ⟨endOfMemory, scan m b c (withDh e (m.mem b.toNat))⟩ := by
  have high : 2 ^ 20 ≤ b.toNat := Nat.le_trans sizing.board.least behind
  apply path_load flat high
  have low := dl_withDh e (m.mem b.toNat)
  generalize withDh e (m.mem b.toNat) = e' at low ⊢
  rw [pattern] at low
  have lost : sizing.board.settle ((scan m b c e').put b.toNat 0xAA#8) = scan m b c e' :=
    settle_put (m := scan m b c e') flat.settled _ behind
  have step : (Line.plain (mov tested dl)).step ⟨7, scan m b c e'⟩ =
      some ⟨8, (scan m b c e').put b.toNat 0xAA#8⟩ :=
    Option.bind_eq_some_iff.mpr ⟨_, store_pattern flat low, rfl⟩
  refine .step rfl step (Line.respects_plain (Respects.mov (reads_low8 (by decide))
    tested_carries)) ?_
  rw [lost]
  have unequal : (sizing.board.floating != 0xAA#8) = true := by
    simpa using floating_ne sizing.board
  apply path_compare (m := scan m b c e') ⟨flat.ds, flat.settled⟩ rfl high low
    (flat.settled _ behind)
  rw [if_pos unequal]
  exact .refl _

def Board.stop (board : Board) : Nat := max board.size 0x100001

theorem path_check (flat : Flat sizing m) (first : 0x100001 ≤ b.toNat)
    (counter : b.toNat + c.toNat = 0xFFFFFFFF) (nonzero : c ≠ 0)
    (pattern : e.extractLsb' 0 8 = 0xAA) (left : b.toNat + n = sizing.board.stop) :
    ∃ k b' c' e', sizing.Path k ⟨check, scan m b c e⟩ ⟨endOfMemory, scan m b' c' e'⟩ ∧
      b'.toNat = sizing.board.stop := by
  induction n generalizing b c e with
  | zero =>
      have behind : sizing.board.size ≤ b.toNat := by
        rw [Nat.add_zero, Board.stop] at left
        omega
      exact ⟨3, b, c, _, path_last flat behind pattern, left⟩
  | succ n ih =>
      have most := sizing.board.most
      have inside : b.toNat < sizing.board.size := by
        rw [Board.stop] at left
        omega
      have less := toNat_pred nonzero
      have moved : (b + 1).toNat = b.toNat + 1 := by bv_omega
      have round := path_round (c := c) flat (by omega) inside pattern
      by_cases exhausted : c - 1 = 0
      · rw [if_pos exhausted] at round
        refine ⟨6, b + 1, c - 1, _, round, ?_⟩
        have zero : (c - 1).toNat = 0 := congrArg BitVec.toNat exhausted
        rw [Board.stop] at left ⊢
        omega
      · rw [if_neg exhausted] at round
        obtain ⟨k, b', c', e', rest, stop⟩ := ih (b := b + 1) (c := c - 1)
          (e := withDh e (m.mem b.toNat)) (by omega) (by omega) exhausted
          ((dl_withDh e _).trans pattern) (by omega)
        exact ⟨6 + k, b', c', e', round.trans rest, stop⟩

end scanning

theorem stop_megabytes (board : Board) : board.stop / 2 ^ 20 = board.size / 2 ^ 20 := by
  have least := board.least
  rw [Board.stop]
  omega

theorem div_megabyte {m : Machine} (edx : m.reg .edx = 0) (eax : m.reg .eax = b)
    (ebx : m.reg .ebx = 0x100000) : ∃ u, div ProtectedMode.ebx m = some u ∧
      u.reg .eax = BitVec.ofNat 32 (b.toNat / 2 ^ 20) ∧ u.mem = m.mem := by
  have dividend : (m.reg .edx ++ m.reg .eax).toNat = b.toNat := by
    rw [toNat_append_eq, edx, eax]
    simp
  have bound := b.isLt
  have fits : ¬ ((0x100000 : BitVec 32) = 0 ∨ 2 ^ 32 ≤ b.toNat / (0x100000 : BitVec 32).toNat) := by
    have unit : (0x100000 : BitVec 32).toNat = 2 ^ 20 := rfl
    rw [unit]
    rintro (zero | large)
    · cases zero
    · omega
  have got : ProtectedMode.ebx.get m = some 0x100000 := congrArg some ebx
  refine ⟨(m.set .eax (BitVec.ofNat 32 (b.toNat / 2 ^ 20))).set .edx
    (BitVec.ofNat 32 (b.toNat % 2 ^ 20)), ?_, rfl, rfl⟩
  rw [div, got]
  simp only [Option.bind_eq_bind, Option.bind_some, dividend]
  exact if_neg fits

section whole

variable (sizing : Sizing)

def Sizing.saved : Machine :=
  sizing.machine.pushed (w := 32) ((sizing.machine.seg .ds).selector.setWidth 32)

def Sizing.flattened : Machine :=
  (sizing.saved.set .eax ((sizing.saved.reg .eax).extractLsb' 16 16 ++ selFlatDS)).setSeg .ds
    ⟨8, 0, 0xFFFFFFFF⟩

theorem flat_flattened : Flat sizing sizing.flattened where
  ds := Machine.setSeg_self _ _ _
  settled := by
    have least := sizing.board.least
    have conventional := sizing.conventional
    have top := sizing.top
    apply Board.Settled.put (m := sizing.machine.set .esp _) sizing.settled
    rw [sizing.stack]
    simp only
    omega

theorem path_begin : ∃ e, e.extractLsb' 0 8 = 0xAA#8 ∧
    sizing.Path 6 ⟨0, sizing.machine⟩ ⟨check, scan sizing.flattened 0x100001 0xFFEFFFFE e⟩ := by
  have settled := (flat_flattened sizing).settled
  have limit : (sizing.machine.seg .ss).limit = 0xFF := congrArg Segment.limit sizing.stack
  have room := sizing.room
  have top : (sizing.machine.reg .esp).toNat ≤ (sizing.machine.seg .ss).limit + 1 := by
    rw [limit]
    exact sizing.top
  have save : push (selector sizing.gdt .ds 32) sizing.machine = some sizing.saved :=
    push_pushed rfl (by decide) room top
  have load : mov ax (imm selFlatDS) sizing.saved = some (sizing.saved.set .eax
      ((sizing.saved.reg .eax).extractLsb' 16 16 ++ selFlatDS)) := rfl
  have enter : mov (selector sizing.gdt .ds 16) ax (sizing.saved.set .eax
      ((sizing.saved.reg .eax).extractLsb' 16 16 ++ selFlatDS)) = some sizing.flattened := by
    have value : ax.get (sizing.saved.set .eax
        ((sizing.saved.reg .eax).extractLsb' 16 16 ++ selFlatDS)) = some selFlatDS :=
      congrArg some BitVec.extractLsb'_append_eq_right
    rw [mov, value]
    rfl
  let e := (sizing.flattened.reg .edx).extractLsb' 8 24 ++ 0xAA#8
  have first : mov ebx (imm 0x100001) sizing.flattened =
      some (sizing.flattened.set .ebx 0x100001) := rfl
  have pattern : mov dl (imm 0xAA) (sizing.flattened.set .ebx 0x100001) =
      some ((sizing.flattened.set .ebx 0x100001).set .edx e) := rfl
  have count : mov ecx (imm 0xFFEFFFFE) ((sizing.flattened.set .ebx 0x100001).set .edx e) =
      some (scan sizing.flattened 0x100001 0xFFEFFFFE e) :=
    congrArg some (Machine.set_comm (sizing.flattened.set .ebx 0x100001) e 0xFFEFFFFE (by decide))
  refine ⟨e, BitVec.extractLsb'_append_eq_right, ?_⟩
  refine path_plain sizing rfl save (Respects.push reads_selector (by decide) room top) settled ?_
  refine path_plain sizing rfl load
    (Respects.mov (reads_imm _) (carries_r16 (by decide) (by decide))) settled ?_
  refine path_plain sizing rfl enter
    (Respects.mov (reads_r16 (by decide)) (carries_selector (by decide))) settled ?_
  refine path_plain sizing rfl first
    (Respects.mov (reads_imm _) (carries_r32 (by decide) (by decide))) settled ?_
  refine path_plain sizing rfl pattern
    (Respects.mov (reads_imm _) (carries_low8 (by decide) (by decide))) settled ?_
  exact path_plain sizing rfl count
    (Respects.mov (reads_imm _) (carries_r32 (by decide) (by decide))) settled (.refl _)

theorem esp_flattened :
    (sizing.flattened.reg .esp).toNat = (sizing.machine.reg .esp).toNat - 4 :=
  toNat_esp_pushed ((sizing.machine.seg .ds).selector.setWidth 32) (by decide) sizing.room

theorem pop_ds (m : Machine) (seg : m.seg .ss = sizing.machine.seg .ss)
    (esp : m.reg .esp = sizing.flattened.reg .esp) (mem : m.mem = sizing.flattened.mem) :
    pop (selector sizing.gdt .ds 32) m = some ((m.set .esp (m.reg .esp + 4)).setSeg .ds
      ⟨32, sizing.base, sizing.pmSize - 1⟩) := by
  have room := sizing.room
  have top := sizing.top
  have limit : (sizing.machine.seg .ss).limit = 0xFF := congrArg Segment.limit sizing.stack
  have selected : (sizing.machine.seg .ds).selector = 32 :=
    congrArg Segment.selector sizing.data
  have depth := esp_flattened sizing
  have found : word m.mem 32 ((m.seg .ss).base + (m.reg .esp).toNat) =
      (sizing.machine.seg .ds).selector.setWidth 32 := by
    rw [seg, esp, mem, depth]
    exact word_write _ _ _ rfl
  rw [pop_eq (by rw [seg, esp, depth, limit]; omega), found, selected]
  rfl

theorem path_divide {m : Machine} (settled : sizing.board.Settled m) (ebx : m.reg .ebx = b) :
    ∃ u, u.reg .eax = BitVec.ofNat 32 (b.toNat / 2 ^ 20) ∧ sizing.Path 4 ⟨13, m⟩ ⟨17, u⟩ := by
  have clear : X86.xor edx edx m = some (m.set .edx 0) :=
    congrArg (fun v => some (m.set .edx v)) BitVec.xor_self
  have copy : mov eax ProtectedMode.ebx (m.set .edx 0) = some ((m.set .edx 0).set .eax b) := by
    rw [← ebx]
    rfl
  have unit : mov ProtectedMode.ebx (imm 0x100000) ((m.set .edx 0).set .eax b) =
      some (((m.set .edx 0).set .eax b).set .ebx 0x100000) := rfl
  obtain ⟨u, divided, eax, memory⟩ := div_megabyte (b := b)
    (m := ((m.set .edx 0).set .eax b).set .ebx 0x100000) rfl rfl rfl
  have settled' : sizing.board.Settled u := by
    intro x behind
    rw [memory]
    exact settled x behind
  refine ⟨u, eax, path_plain sizing rfl clear (Respects.update (reads_r32 (by decide))
    (reads_r32 (by decide)) (carries_r32 (by decide) (by decide)) _) settled ?_⟩
  refine path_plain sizing rfl copy (Respects.mov (reads_r32 (by decide))
    (carries_r32 (by decide) (by decide))) settled ?_
  refine path_plain sizing rfl unit (Respects.mov (reads_imm _)
    (carries_r32 (by decide) (by decide))) settled ?_
  exact path_plain sizing rfl divided (Respects.div (reads_r32 (by decide)) (by decide)
    (by decide)) settled' (.refl _)

theorem path_end (stop : b.toNat = sizing.board.stop) : ∃ u, u.reg .eax =
      BitVec.ofNat 32 (sizing.board.size / 2 ^ 20) ∧
    sizing.Path 5 ⟨endOfMemory, scan sizing.flattened b c e⟩ ⟨17, u⟩ := by
  have room := sizing.room
  have top := sizing.top
  have limit : ((scan sizing.flattened b c e).seg .ss).limit = 0xFF :=
    congrArg Segment.limit sizing.stack
  have depth : ((scan sizing.flattened b c e).reg .esp).toNat =
      (sizing.machine.reg .esp).toNat - 4 := esp_flattened sizing
  have restore := pop_ds sizing (scan sizing.flattened b c e) rfl rfl rfl
  generalize restored : ((scan sizing.flattened b c e).set .esp
    ((scan sizing.flattened b c e).reg .esp + 4)).setSeg .ds
      ⟨32, sizing.base, sizing.pmSize - 1⟩ = m at restore
  have settled : sizing.board.Settled m := by
    rw [← restored]
    exact (flat_flattened sizing).settled
  have ebx : m.reg .ebx = b := by
    rw [← restored]
    rfl
  have respects : Respects Working sizing.written (pop (selector sizing.gdt .ds 32))
      (scan sizing.flattened b c e) := by
    apply Respects.pop
    · rw [depth, limit]
      omega
    · rw [limit]
      decide
    · exact carries_selector (by decide)
  obtain ⟨u, eax, divide⟩ := path_divide sizing settled ebx
  refine ⟨u, ?_, path_plain sizing rfl restore respects settled divide⟩
  rw [eax, stop, stop_megabytes]

theorem around_absorbs (n : Nat) (s t : Machine)
    (same : Undisturbed Working sizing.written s t) :
    Undisturbed Working sizing.written (sizing.board.settle s) (sizing.around n t) :=
  (settle_undisturbed same).trans (sizing.restored n _)

/-- Whatever comes between the instructions, the loop is entered and left, every byte of the memory
is as it was then, and the division gives the whole megabytes. -/
theorem counts_megabytes : ∃ n₁ m₁ n₂ m₂ n₃ m₃,
    sizing.run 0 n₁ ⟨0, sizing.machine⟩ = some ⟨check, m₁⟩ ∧
    sizing.run n₁ n₂ ⟨check, m₁⟩ = some ⟨endOfMemory, m₂⟩ ∧
    sizing.run (n₁ + n₂) n₃ ⟨endOfMemory, m₂⟩ = some ⟨17, m₃⟩ ∧
    (∀ x < sizing.board.size, ¬ sizing.written x → m₂.mem x = m₁.mem x) ∧
    m₃.reg .eax = BitVec.ofNat 32 (sizing.board.size / 2 ^ 20) := by
  have most := sizing.board.most
  obtain ⟨e, pattern, begin⟩ := path_begin sizing
  obtain ⟨n, left⟩ : ∃ n, (0x100001 : BitVec 32).toNat + n = sizing.board.stop :=
    ⟨sizing.board.stop - 0x100001, Nat.add_sub_cancel' (Nat.le_max_right _ _)⟩
  obtain ⟨k, b, c, e', loop, stop⟩ := path_check (c := 0xFFEFFFFE) (flat_flattened sizing)
    (by decide) (by decide) (by decide) pattern left
  obtain ⟨final, eax, finish⟩ := path_end sizing (c := c) (e := e') stop
  obtain ⟨m₁, run₁, same₁⟩ := begin.execute (around_absorbs sizing) (.refl _) 0
  obtain ⟨m₂, run₂, same₂⟩ := loop.execute (around_absorbs sizing) same₁ 6
  obtain ⟨m₃, run₃, same₃⟩ := finish.execute (around_absorbs sizing) same₂ (6 + k)
  refine ⟨6, m₁, k, m₂, 5, m₃, run₁, run₂, run₃, ?_, ?_⟩
  · intro x _ kept
    rw [same₂.mem x kept, same₁.mem x kept]
    rfl
  · exact (same₃.reg .eax (by decide)).trans eax

end whole

def smallest : Sizing where
  board := ⟨2 ^ 20 + 2, 0xFF, by decide, by decide, Or.inr rfl⟩
  base := 0x10000
  pmSize := 0x1000
  conventional := by decide
  machine :=
    { reg := fun r => if r = .esp then 0x100 - 4 else 0
      seg := fun
        | .cs => ⟨24, 0x10000, 0xFFF⟩
        | .ss => ⟨40, 0x10000, 0x100 - 1⟩
        | .es => ⟨48, 0xB8000, 0xF0F9F⟩
        | _ => ⟨32, 0x10000, 0x1000 - 1⟩
      mem := fun x => if x < 2 ^ 20 + 2 then 0 else 0xFF
      port := fun _ => 0
      sent := [] }
  data := rfl
  stack := rfl
  room := by decide
  top := by decide
  settled x behind := if_neg (Nat.not_lt.mpr behind)
  written _ := False
  below _ inside := inside.elim
  interrupt _ m := m
  restored _ m := .refl m

/-- It clears EAX between the copy of EBX and the division. -/
def clearing (n : Nat) (m : Machine) : Machine := if n = 17 then m.set .eax 0 else m

/-- What keeps EBX, ECX, EDX and the segment registers may still spoil the result: one megabyte
counts as none. -/
theorem eax_spoiled :
    (∀ n m, (clearing n m).reg .ebx = m.reg .ebx ∧ (clearing n m).reg .ecx = m.reg .ecx ∧
      (clearing n m).reg .edx = m.reg .edx ∧ (clearing n m).seg = m.seg) ∧
    (execute (computeMemory smallest.gdt) (fun n m => clearing n (smallest.board.settle m)) 0 20
      ⟨0, smallest.machine⟩).map (fun p => (p.pc, p.machine.reg .eax)) = some (17, 0) ∧
    smallest.board.size / 2 ^ 20 = 1 := by
  refine ⟨fun n m => ?_, by decide, by decide⟩
  unfold clearing
  split
  · exact ⟨rfl, rfl, rfl, rfl⟩
  · exact ⟨rfl, rfl, rfl, rfl⟩

end OsUnix.ProtectedMode
