import OsUnix.Concurrency.Counting
import OsUnix.Fortune.Invariant
import Mathlib.Data.Fin.VecNotation
import Mathlib.Tactic.IntervalCases

/-!
# Concurrent writes

Calls of `fortune_write` under way at the same time, each in its four steps. No lock is taken.
-/

namespace OsUnix.Fortune
open Kernel Concurrency

structure Call where
  buf : List UInt8
  len : Nat

inductive Pc
  | check
  | copy
  | add
  | terminate
  | refused
  | failed
  | accepted
deriving DecidableEq, Repr

def Pc.ret (len : Nat) : Pc → Option Int
  | .refused => some (-enospc)
  | .failed => some (-efault)
  | .accepted => some (toSsize len)
  | _ => none

def Call.step (call : Call) (pot : Pot) : Pc → Option (Pot × Pc)
  | .check => some (pot, if full pot.cookieIndex call.len then .refused else .copy)
  | .copy =>
      some (pot.copy call.buf call.len,
        if (copyFromUser pot.cookieIndex call.buf call.len).left ≠ 0 then .failed else .add)
  | .add => some (pot.add call.len, .terminate)
  | .terminate => some (pot.terminate, .accepted)
  | _ => none

variable {ι : Type*}

def system (outside : Memory) (calls : ι → Call) : System ι Pot Pc Unit where
  shared₀ := .fresh outside
  locals₀ _ := .check
  step i pot pc := ((calls i).step pot pc).map fun r => (r.1, r.2, ())

abbrev State (ι : Type*) := Config ι Pot Pc Unit

def Returned (calls : ι → Call) (s : State ι) : Prop :=
  ∀ i, ((s.locals i).ret (calls i).len).isSome

def Pc.held (len : Nat) : Pc → Nat
  | .terminate | .accepted => len
  | _ => 0

structure KeptAt [Fintype ι] (calls : ι → Call) (s : State ι) (base : ι → Int) : Prop where
  within : ∀ i, s.locals i = .accepted → 1 ≤ (calls i).len →
    0 ≤ base i ∧ base i + (calls i).len ≤ maxCookieLength
  bytes : ∀ i, s.locals i = .accepted → 1 ≤ (calls i).len →
    s.shared.cookiePot.slice (base i) (calls i).len =
      (calls i).buf.take ((calls i).len - 1) ++ [0]
  apart : ∀ i j, s.locals i = .accepted → s.locals j = .accepted → i ≠ j →
    base i + (calls i).len ≤ base j ∨ base j + (calls j).len ≤ base i

def total [Fintype ι] (calls : ι → Call) (s : State ι) : Nat :=
  ∑ i, if s.locals i = .accepted then (calls i).len else 0

structure Kept [Fintype ι] (calls : ι → Call) (s : State ι) : Prop where
  regions : ∃ base, KeptAt calls s base
  index : s.shared.cookieIndex = total calls s

variable {calls : ι → Call} {call : Call} {pot next : Pot} {pc pc' : Pc} {s t : State ι}
  {outside : Memory} {i j : ι}

inductive Move (call : Call) (pot : Pot) : Pc → Pot → Pc → Prop
  | refused (exceeds : full pot.cookieIndex call.len = true) : Move call pot .check pot .refused
  | admitted (room : full pot.cookieIndex call.len = false) : Move call pot .check pot .copy
  | failed (short : call.buf.length < call.len) :
      Move call pot .copy (pot.copy call.buf call.len) .failed
  | copied (whole : call.len ≤ call.buf.length) :
      Move call pot .copy (pot.copy call.buf call.len) .add
  | add : Move call pot .add (pot.add call.len) .terminate
  | terminate : Move call pot .terminate pot.terminate .accepted

theorem move_of_step (step : call.step pot pc = some (next, pc')) : Move call pot pc next pc' := by
  cases pc with
  | check =>
      cases exceeds : full pot.cookieIndex call.len <;> simp [Call.step, exceeds] at step
      · obtain ⟨rfl, rfl⟩ := step
        exact .admitted exceeds
      · obtain ⟨rfl, rfl⟩ := step
        exact .refused exceeds
  | copy =>
      by_cases whole : call.len ≤ call.buf.length
      · rw [Call.step, if_neg (not_not.mpr (copyFromUser_left.mpr whole))] at step
        cases step
        exact .copied whole
      · rw [Call.step, if_pos fun left => whole (copyFromUser_left.mp left)] at step
        cases step
        exact .failed (Nat.lt_of_not_le whole)
  | add => cases step; exact .add
  | terminate => cases step; exact .terminate
  | _ => cases step

variable [DecidableEq ι]

theorem next_cases (next : (system outside calls).next s i = some t) :
    ∃ pot pc, Move (calls i) s.shared (s.locals i) pot pc ∧ t = s.move i pot pc () := by
  obtain ⟨pot, pc, ⟨⟩, moves, rfl⟩ := System.next_eq_some.mp next
  obtain ⟨r, step, eq⟩ := Option.map_eq_some_iff.mp moves
  cases eq
  exact ⟨_, _, move_of_step step, rfl⟩

variable [Fintype ι]

def heldTotal (calls : ι → Call) (s : State ι) : Nat :=
  ∑ i, (s.locals i).held (calls i).len

theorem heldTotal_move : heldTotal calls (s.move i next pc ()) + (s.locals i).held (calls i).len =
    heldTotal calls s + pc.held (calls i).len :=
  sum_update_at (fun i pc => pc.held (calls i).len) s.locals i pc

theorem held_eq_of_returned (returned : (pc.ret call.len).isSome) :
    pc.held call.len = if pc = .accepted then call.len else 0 := by
  cases pc <;> first | rfl | cases returned

omit [DecidableEq ι] in
theorem heldTotal_eq (returned : Returned calls s) : heldTotal calls s = total calls s :=
  Finset.sum_congr rfl fun i _ => held_eq_of_returned (returned i)

theorem cookieIndex_eq (h : (system outside calls).Reachable s) :
    s.shared.cookieIndex = toInt (heldTotal calls s) := by
  apply h.invariant (I := fun s => s.shared.cookieIndex = toInt (heldTotal calls s))
  · have none : heldTotal calls (system outside calls).init = 0 :=
      Finset.sum_eq_zero fun _ _ => rfl
    rw [none]
    rfl
  · intro s i t inv next
    obtain ⟨pot, pc, moves, rfl⟩ := next_cases next
    have held := @heldTotal_move _ calls pot pc s i _ _
    show pot.cookieIndex = toInt (heldTotal calls (s.move i pot pc ()))
    generalize heldTotal calls (s.move i pot pc ()) = total at held ⊢
    generalize s.locals i = before at moves held
    cases moves with
    | add =>
        have held : total = heldTotal calls s + (calls i).len := held
        show toInt (toSize s.shared.cookieIndex + (calls i).len) = toInt total
        rw [inv, held, toInt_add, Int.natCast_add]
    | terminate =>
        obtain rfl : total = heldTotal calls s := Nat.add_right_cancel held
        exact inv
    | _ =>
        obtain rfl : total = heldTotal calls s := held
        exact inv

/-! ## Copies that do not overlap -/

def Pc.storing : Pc → Bool
  | .add | .terminate => true
  | _ => false

/-- A copy begins only while no other call is storing and while its bytes fit. -/
def Exclusive (calls : ι → Call) (s : State ι) (i : ι) : Prop :=
  s.locals i = .copy → (∀ j, (s.locals j).storing = false) ∧
    s.shared.cookieIndex + (calls i).len ≤ maxCookieLength

structure Region (pot : Pot) (call : Call) (b : Int) : Prop where
  nonneg : 0 ≤ b
  le : b + call.len ≤ pot.cookieIndex
  front : pot.cookiePot.slice b (call.len - 1) = call.buf.take (call.len - 1)

inductive Placed (pot : Pot) (call : Call) (b : Int) : Pc → Prop
  | check : Placed pot call b .check
  | copy : Placed pot call b .copy
  | add (fits : pot.cookieIndex + call.len ≤ maxCookieLength)
      (bytes : pot.cookiePot.slice pot.cookieIndex call.len = call.buf.take call.len) :
      Placed pot call b .add
  | terminate (region : Region pot call b) (last : b + call.len = pot.cookieIndex) :
      Placed pot call b .terminate
  | refused : Placed pot call b .refused
  | failed : Placed pot call b .failed
  | accepted (region : Region pot call b)
      (ended : 1 ≤ call.len → pot.cookiePot (b + call.len - 1) = 0) : Placed pot call b .accepted

structure Arranged (calls : ι → Call) (s : State ι) (base : ι → Int) : Prop where
  index : s.shared.cookieIndex = heldTotal calls s
  index_le : s.shared.cookieIndex ≤ maxCookieLength
  alone : count Pc.storing s.locals ≤ 1
  placed : ∀ i, Placed s.shared (calls i) (base i) (s.locals i)
  nonneg : ∀ i, 0 ≤ base i
  le : ∀ i, base i + (s.locals i).held (calls i).len ≤ s.shared.cookieIndex
  apart : ∀ i j, i ≠ j → base i + (s.locals i).held (calls i).len ≤ base j ∨
    base j + (s.locals j).held (calls j).len ≤ base i

section
variable {b : Int}

theorem Region.copy (region : Region pot call b) (buf : List UInt8) (len : Nat) :
    Region (pot.copy buf len) call b where
  nonneg := region.nonneg
  le := region.le
  front := by
    have le := region.le
    exact (Memory.slice_store copyFromUser_within (.inl (by omega))).trans region.front

theorem Placed.of_copy (placed : Placed pot call b pc) (idle : pc.storing = false)
    (buf : List UInt8) (len : Nat) : Placed (pot.copy buf len) call b pc := by
  cases placed with
  | check => exact .check
  | copy => exact .copy
  | refused => exact .refused
  | failed => exact .failed
  | accepted region ended =>
      refine .accepted (region.copy buf len) fun positive => ?_
      have le := region.le
      rw [copy_below (by omega)]
      exact ended positive
  | _ => cases idle

theorem Region.add {len : Nat} (region : Region pot call b)
    (more : pot.cookieIndex ≤ (pot.add len).cookieIndex) : Region (pot.add len) call b where
  nonneg := region.nonneg
  le := Int.le_trans region.le more
  front := region.front

theorem Placed.of_add {len : Nat} (placed : Placed pot call b pc) (idle : pc.storing = false)
    (more : pot.cookieIndex ≤ (pot.add len).cookieIndex) : Placed (pot.add len) call b pc := by
  cases placed with
  | check => exact .check
  | copy => exact .copy
  | refused => exact .refused
  | failed => exact .failed
  | accepted region ended => exact .accepted (region.add more) ended
  | _ => cases idle

theorem Region.terminate (region : Region pot call b) : Region pot.terminate call b where
  nonneg := region.nonneg
  le := region.le
  front := by
    have le := region.le
    rw [← region.front]
    exact Memory.slice_congr fun i _ _ => terminate_cookiePot pot (by omega)

theorem terminate_zero {i : Int} (zero : pot.cookiePot i = 0) : pot.terminate.cookiePot i = 0 := by
  by_cases last : i = pot.cookieIndex - 1
  · rw [last]
    exact terminate_cookiePot_self pot
  · rw [terminate_cookiePot pot last, zero]

theorem Placed.of_terminate (placed : Placed pot call b pc) (idle : pc.storing = false) :
    Placed pot.terminate call b pc := by
  cases placed with
  | check => exact .check
  | copy => exact .copy
  | refused => exact .refused
  | failed => exact .failed
  | accepted region ended =>
      exact .accepted region.terminate fun positive => terminate_zero (ended positive)
  | _ => cases idle

end

variable {base : ι → Int}

omit [DecidableEq ι] in
theorem Arranged.others (inv : Arranged calls s base) (storing : (s.locals i).storing = true)
    (other : j ≠ i) : (s.locals j).storing = false := by
  by_contra also
  exact other (count_le_one_iff.mp inv.alone j i (Bool.eq_true_of_not_eq_false also) storing)

theorem Arranged.keep (inv : Arranged calls s base)
    (index : next.cookieIndex = s.shared.cookieIndex)
    (held : pc.held (calls i).len = (s.locals i).held (calls i).len)
    (alone : count Pc.storing (s.move i next pc ()).locals ≤ 1)
    (self : Placed next (calls i) (base i) pc)
    (others : ∀ j, j ≠ i → Placed next (calls j) (base j) (s.locals j)) :
    Arranged calls (s.move i next pc ()) base := by
  have same (j : ι) : ((s.move i next pc ()).locals j).held (calls j).len =
      (s.locals j).held (calls j).len := by
    by_cases eq : j = i
    · subst eq
      rw [Config.move_locals, Function.update_self, held]
    · rw [Config.move_locals, Function.update_of_ne eq]
  constructor
  · show next.cookieIndex = heldTotal calls (s.move i next pc ())
    rw [index, inv.index, heldTotal, heldTotal]
    simp only [same]
  · show next.cookieIndex ≤ maxCookieLength
    rw [index]
    exact inv.index_le
  · exact alone
  · exact (Function.forall_update_iff s.locals
      fun j pc => Placed next (calls j) (base j) pc).mpr ⟨self, others⟩
  · exact inv.nonneg
  · intro j
    show base j + ((s.move i next pc ()).locals j).held (calls j).len ≤ next.cookieIndex
    rw [same, index]
    exact inv.le j
  · intro j k distinct
    rw [same, same]
    exact inv.apart j k distinct

theorem Arranged.add (inv : Arranged calls s base) (at_add : s.locals i = .add) :
    Arranged calls (s.move i (s.shared.add (calls i).len) .terminate ())
      (Function.update base i s.shared.cookieIndex) := by
  have placed := inv.placed i
  have held := @heldTotal_move _ calls (s.shared.add (calls i).len) .terminate s i _ _
  have counted := count_update Pc.storing s.locals i .terminate
  have others (j : ι) (other : j ≠ i) := inv.others (by rw [at_add]; rfl) other
  have nonneg : 0 ≤ s.shared.cookieIndex := by rw [inv.index]; exact Int.natCast_nonneg _
  rw [at_add] at placed held counted
  cases placed with
  | add fits bytes =>
      have index :
          (s.shared.add (calls i).len).cookieIndex = s.shared.cookieIndex + (calls i).len :=
        add_index nonneg (by omega)
      constructor
      · show (s.shared.add (calls i).len).cookieIndex = _
        simp only [Pc.held] at held
        rw [index, inv.index]
        omega
      · show (s.shared.add (calls i).len).cookieIndex ≤ maxCookieLength
        rw [index]
        exact fits
      · exact (Nat.add_right_cancel counted).le.trans inv.alone
      · intro j
        show Placed (s.shared.add (calls i).len) _ _ _
        rw [Config.move_locals]
        rcases eq_or_ne j i with rfl | other
        · rw [Function.update_self, Function.update_self]
          refine .terminate ⟨nonneg, by omega, ?_⟩ index.symm
          rw [add_cookiePot, ← Memory.take_slice (Nat.sub_le _ _), bytes, List.take_take,
            Nat.min_eq_left (Nat.sub_le _ _)]
        · rw [Function.update_of_ne other, Function.update_of_ne other]
          exact (inv.placed j).of_add (others j other) (by omega)
      · intro j
        rcases eq_or_ne j i with rfl | other
        · rw [Function.update_self]
          exact nonneg
        · rw [Function.update_of_ne other]
          exact inv.nonneg j
      · intro j
        show _ ≤ (s.shared.add (calls i).len).cookieIndex
        rw [Config.move_locals, index]
        rcases eq_or_ne j i with rfl | other
        · rw [Function.update_self, Function.update_self]
          exact Int.le_refl _
        · rw [Function.update_of_ne other, Function.update_of_ne other]
          exact (inv.le j).trans (by omega)
      · intro j k distinct
        rw [Config.move_locals]
        rcases eq_or_ne j i with rfl | j_other
        · rw [Function.update_self, Function.update_of_ne distinct.symm,
            Function.update_of_ne distinct.symm]
          exact .inr (inv.le k)
        · rw [Function.update_of_ne j_other, Function.update_of_ne j_other]
          rcases eq_or_ne k i with rfl | k_other
          · rw [Function.update_self]
            exact .inl (inv.le j)
          · rw [Function.update_of_ne k_other, Function.update_of_ne k_other]
            exact inv.apart j k distinct

theorem Arranged.step (inv : Arranged calls s base) (ok : Exclusive calls s i)
    (next : (system outside calls).next s i = some t) : ∃ base, Arranged calls t base := by
  obtain ⟨pot, pc, moves, rfl⟩ := next_cases next
  have counted := count_update Pc.storing s.locals i pc
  have placed := inv.placed i
  generalize at_i : s.locals i = before at moves counted placed
  cases moves with
  | refused _ =>
      exact ⟨base, inv.keep rfl (by rw [at_i]; rfl) (counted.le.trans inv.alone) .refused
        fun j _ => inv.placed j⟩
  | admitted _ =>
      exact ⟨base, inv.keep rfl (by rw [at_i]; rfl) (counted.le.trans inv.alone) .copy
        fun j _ => inv.placed j⟩
  | failed _ =>
      obtain ⟨idle, fits⟩ := ok at_i
      exact ⟨base, inv.keep rfl (by rw [at_i]; rfl) (counted.le.trans inv.alone) .failed
        fun j _ => (inv.placed j).of_copy (idle j) _ _⟩
  | copied whole =>
      obtain ⟨idle, fits⟩ := ok at_i
      have none : count Pc.storing s.locals = 0 := count_eq_zero_iff.mpr idle
      have bytes : (s.shared.copy (calls i).buf (calls i).len).cookiePot.slice
          s.shared.cookieIndex (calls i).len = (calls i).buf.take (calls i).len :=
        slice_copyFromUser.trans (copied_whole whole)
      exact ⟨base, inv.keep rfl (by rw [at_i]; rfl) (counted.le.trans (by rw [none]; rfl))
        (.add fits bytes) fun j _ => (inv.placed j).of_copy (idle j) _ _⟩
  | add => exact ⟨_, inv.add at_i⟩
  | terminate =>
      have others (j : ι) (other : j ≠ i) := inv.others (by rw [at_i]; rfl) other
      have alone : count Pc.storing (s.move i s.shared.terminate .accepted ()).locals ≤ 1 :=
        (Nat.le_of_succ_le counted.le).trans inv.alone
      cases placed with
      | terminate region last =>
          refine ⟨base, inv.keep rfl (by rw [at_i]; rfl) alone
            (.accepted region.terminate fun _ => ?_)
            fun j other => (inv.placed j).of_terminate (others j other)⟩
          rw [last]
          exact terminate_cookiePot_self _

theorem exists_arranged (h : (system outside calls).ReachableIf (Exclusive calls) s) :
    ∃ base, Arranged calls s base := by
  apply h.invariant (I := fun s => ∃ base, Arranged calls s base)
  · have none : heldTotal calls (system outside calls).init = 0 :=
      Finset.sum_eq_zero fun _ _ => rfl
    have idle : count Pc.storing (system outside calls).init.locals = 0 :=
      count_eq_zero_iff.mpr fun _ => rfl
    refine ⟨0, ?_, Int.natCast_nonneg _, by omega, fun i => .check, fun _ => Int.le_refl 0,
      fun _ => Int.le_refl 0, fun _ _ _ => .inl (Int.le_refl 0)⟩
    rw [none]
    rfl
  · intro s i t _ ⟨base, inv⟩ ok next
    exact inv.step ok next

omit [DecidableEq ι] in
theorem Arranged.kept (inv : Arranged calls s base) (returned : Returned calls s) :
    Kept calls s := by
  have region (i : ι) (accepted : s.locals i = .accepted) : Region s.shared (calls i) (base i) ∧
      (1 ≤ (calls i).len → s.shared.cookiePot (base i + (calls i).len - 1) = 0) := by
    have placed := inv.placed i
    rw [accepted] at placed
    cases placed with
    | accepted region ended => exact ⟨region, ended⟩
  refine ⟨⟨base, fun i accepted _ => ?_, fun i accepted positive => ?_,
    fun i j at_i at_j distinct => ?_⟩, ?_⟩
  · obtain ⟨region, -⟩ := region i accepted
    exact ⟨region.nonneg, region.le.trans inv.index_le⟩
  · obtain ⟨region, ended⟩ := region i accepted
    obtain ⟨k, eq⟩ := Nat.exists_eq_add_of_le' positive
    have front := region.front
    have zero := ended positive
    rw [eq, Nat.add_sub_cancel] at front
    rw [eq, Int.natCast_add, ← Int.add_assoc, Int.natCast_one, Int.add_sub_cancel] at zero
    rw [eq, Memory.slice_add, front, Nat.add_sub_cancel, Memory.slice, Memory.slice, zero]
  · have apart := inv.apart i j distinct
    rwa [at_i, at_j] at apart
  · rw [inv.index, heldTotal_eq returned]

/-! ## Calls one after the other -/

def Pc.active : Pc → Bool
  | .copy | .add | .terminate => true
  | _ => false

def Alone (calls : ι → Call) (s : State ι) (i : ι) : Prop :=
  s.locals i = .check → (∀ j, (s.locals j).active = false) ∧
    ((calls i).len : Int) ≠ maxCookieLength - s.shared.cookieIndex + 1

instance (calls : ι → Call) (s : State ι) (i : ι) : Decidable (Alone calls s i) :=
  inferInstanceAs (Decidable (_ → _ ∧ _))

structure OneByOne (calls : ι → Call) (s : State ι) : Prop where
  one : count Pc.active s.locals ≤ 1
  fits : ∀ i, s.locals i = .copy → s.shared.cookieIndex + (calls i).len ≤ maxCookieLength

omit [DecidableEq ι] in
theorem OneByOne.exclusive (inv : OneByOne calls s) (i : ι) : Exclusive calls s i := by
  intro at_copy
  refine ⟨fun j => ?_, inv.fits i at_copy⟩
  by_contra storing
  have active : (s.locals j).active = true := by
    cases pc : s.locals j <;> rw [pc] at storing <;> first | rfl | exact absurd rfl storing
  obtain rfl : j = i := count_le_one_iff.mp inv.one j i active (by rw [at_copy]; rfl)
  rw [at_copy] at storing
  exact storing rfl

theorem OneByOne.keep (inv : OneByOne calls s)
    (one : count Pc.active (s.move i next pc ()).locals ≤ 1)
    (index : next.cookieIndex = s.shared.cookieIndex)
    (mine : pc = .copy → s.shared.cookieIndex + (calls i).len ≤ maxCookieLength) :
    OneByOne calls (s.move i next pc ()) := by
  refine ⟨one, fun j at_copy => ?_⟩
  show next.cookieIndex + (calls j).len ≤ maxCookieLength
  rw [Config.move_locals] at at_copy
  rw [index]
  rcases eq_or_ne j i with rfl | other
  · exact mine (by rwa [Function.update_self] at at_copy)
  · exact inv.fits j (by rwa [Function.update_of_ne other] at at_copy)

theorem OneByOne.step (inv : OneByOne calls s) (arranged : Arranged calls s base)
    (ok : Alone calls s i) (next : (system outside calls).next s i = some t) :
    OneByOne calls t := by
  obtain ⟨pot, pc, moves, rfl⟩ := next_cases next
  have counted := count_update Pc.active s.locals i pc
  generalize at_i : s.locals i = before at moves counted
  cases moves with
  | refused _ => exact inv.keep (counted.le.trans inv.one) rfl nofun
  | admitted room =>
      obtain ⟨idle, ne⟩ := ok at_i
      have none : count Pc.active s.locals = 0 := count_eq_zero_iff.mpr idle
      have nonneg : 0 ≤ s.shared.cookieIndex := by rw [arranged.index]; exact Int.natCast_nonneg _
      have le := arranged.index_le
      refine inv.keep (counted.le.trans (by rw [none]; rfl)) rfl fun _ => ?_
      rw [← Bool.not_eq_true, full_iff nonneg (by omega)] at room
      omega
  | failed _ => exact inv.keep ((Nat.le_of_succ_le counted.le).trans inv.one) rfl nofun
  | copied _ => exact inv.keep ((Nat.add_right_cancel counted).le.trans inv.one) rfl nofun
  | add =>
      refine ⟨(Nat.add_right_cancel counted).le.trans inv.one, fun j at_copy => ?_⟩
      rw [Config.move_locals] at at_copy
      rcases eq_or_ne j i with rfl | other
      · rw [Function.update_self] at at_copy
        cases at_copy
      · rw [Function.update_of_ne other] at at_copy
        exact absurd (count_le_one_iff.mp inv.one j i (by rw [at_copy]; rfl) (by rw [at_i]; rfl))
          other
  | terminate => exact inv.keep ((Nat.le_of_succ_le counted.le).trans inv.one) rfl nofun

theorem exclusive_of_alone (h : (system outside calls).ReachableIf (Alone calls) s) :
    (system outside calls).ReachableIf (Exclusive calls) s := by
  have both : (system outside calls).ReachableIf (Exclusive calls) s ∧ OneByOne calls s := by
    apply h.invariant (I := fun s =>
      (system outside calls).ReachableIf (Exclusive calls) s ∧ OneByOne calls s)
    · have idle : count Pc.active (system outside calls).init.locals = 0 :=
        count_eq_zero_iff.mpr fun _ => rfl
      exact ⟨Relation.ReflTransGen.refl, by omega, nofun⟩
    · intro s i t _ ⟨reach, inv⟩ ok next
      obtain ⟨base, arranged⟩ := exists_arranged reach
      exact ⟨Relation.ReflTransGen.tail reach ⟨i, inv.exclusive i, next⟩,
        inv.step arranged ok next⟩
  exact both.1

/-- `cookie_index` counts the accepted messages in every order of steps. The messages themselves are
kept where no copy begins while another call is storing, so in particular by calls one after the
other. -/
theorem concurrent_writes (outside : Memory) (calls : ι → Call) :
    (∀ s, (system outside calls).Reachable s → Returned calls s →
      s.shared.cookieIndex = toInt (total calls s)) ∧
    (∀ s, (system outside calls).ReachableIf (Exclusive calls) s → Returned calls s →
      Kept calls s) ∧
    (∀ s, (system outside calls).ReachableIf (Alone calls) s → Returned calls s →
      Kept calls s) := by
  have kept (s : State ι) (h : (system outside calls).ReachableIf (Exclusive calls) s)
      (returned : Returned calls s) : Kept calls s := by
    obtain ⟨base, inv⟩ := exists_arranged h
    exact inv.kept returned
  refine ⟨fun s h returned => ?_, kept, fun s h => kept s (exclusive_of_alone h)⟩
  rw [cookieIndex_eq h, heldTotal_eq returned]

def twoCalls : Fin 2 → Call := ![⟨[97, 98, 0], 3⟩, ⟨[99, 100, 0], 3⟩]

theorem concurrent_writes_in_turn : ∃ s, (system 0 twoCalls).ReachableIf (Alone twoCalls) s ∧
    Returned twoCalls s ∧ Kept twoCalls s := by
  have run : ((system 0 twoCalls).execIf (Alone twoCalls) (system 0 twoCalls).init
      [0, 0, 0, 0, 1, 1, 1, 1]).any (fun s => s.locals 0 = .accepted ∧ s.locals 1 = .accepted) := by
    decide
  obtain ⟨s, exec, holds⟩ := (Option.any_eq_true _ _).mp run
  obtain ⟨at_0, at_1⟩ := of_decide_eq_true holds
  have returned : Returned twoCalls s := by
    rw [Returned, Fin.forall_fin_two, at_0, at_1]
    exact ⟨rfl, rfl⟩
  have reach := System.reachableIf_of_execIf Relation.ReflTransGen.refl exec
  exact ⟨s, reach, returned, (concurrent_writes 0 twoCalls).2.2 s reach returned⟩

def overwritten : Pot :=
  (((((Pot.fresh 0).copy [97, 98, 0] 3).copy [99, 100, 0] 3).add 3).add 3).terminate.terminate

theorem overwritten_ne (i : Int) : overwritten.cookiePot i ≠ 97 := by
  by_cases inside : 0 ≤ i ∧ i < 6
  · obtain ⟨lower, upper⟩ := inside
    interval_cases i <;> decide
  · have stores : overwritten.cookiePot = (Pot.fresh 0).cookiePot.store
        [(0, 97), (1, 98), (2, 0), (0, 99), (1, 100), (2, 0), (5, 0), (5, 0)] := rfl
    rw [stores, Memory.store_eq (show Accesses.Within _ 0 6 by simp [Accesses.Within]) (by omega)]
    show (if 0 ≤ i ∧ i < maxCookieLength then 0 else 0) ≠ 97
    split <;> decide

theorem concurrent_writes_fails : ∃ s, (system 0 twoCalls).Reachable s ∧ Returned twoCalls s ∧
    ¬ Kept twoCalls s := by
  have run : ((system 0 twoCalls).exec (system 0 twoCalls).init [0, 1, 0, 1, 0, 1, 0, 1]).map
      (fun s => (s.shared, s.locals 0, s.locals 1)) =
        some (overwritten, .accepted, .accepted) := rfl
  obtain ⟨s, exec, eq⟩ := Option.map_eq_some_iff.mp run
  simp only [Prod.mk.injEq] at eq
  obtain ⟨pot, at_0, at_1⟩ := eq
  refine ⟨s, System.run_of_exec exec, ?_, fun ⟨⟨base, kept⟩, _⟩ => ?_⟩
  · rw [Returned, Fin.forall_fin_two, at_0, at_1]
    exact ⟨rfl, rfl⟩
  · have bytes := kept.bytes 0 at_0 (by decide)
    rw [pot] at bytes
    exact overwritten_ne _ (List.cons.inj bytes).1

end OsUnix.Fortune
