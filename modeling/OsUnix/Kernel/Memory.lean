import OsUnix.Kernel.Text
import Mathlib.Data.Nat.Find
import Mathlib.Data.UInt
import Mathlib.Logic.Function.Basic

/-!
# Byte memory

Kernel memory around one buffer, indexed from the buffer's start: below zero and beyond the end are
somebody else's bytes. Stores and loads keep the indices they touch.
-/

namespace OsUnix.Kernel

abbrev Memory := Int → UInt8

abbrev Accesses := List (Int × UInt8)

namespace Accesses

def bytes (accesses : Accesses) : List UInt8 := accesses.map Prod.snd

def Within (accesses : Accesses) (lower upper : Int) : Prop :=
  ∀ a ∈ accesses, lower ≤ a.1 ∧ a.1 < upper

instance (accesses : Accesses) (lower upper : Int) : Decidable (accesses.Within lower upper) :=
  inferInstanceAs (Decidable (∀ a ∈ accesses, lower ≤ a.1 ∧ a.1 < upper))

def place (p : Int) : List UInt8 → Accesses
  | [] => []
  | b :: rest => (p, b) :: place (p + 1) rest

variable {a b : Accesses} {lower upper p : Int} {bs : List UInt8}

theorem within_append : Within (a ++ b) lower upper ↔ a.Within lower upper ∧ b.Within lower upper :=
  List.forall_mem_append

theorem within_singleton {c : UInt8} :
    Within [(p, c)] lower upper ↔ lower ≤ p ∧ p < upper := by
  simp [Within]

theorem Within.mono {lower' upper' : Int} (h : a.Within lower upper) (below : lower' ≤ lower)
    (above : upper ≤ upper') : a.Within lower' upper' := fun e mem =>
  ⟨Int.le_trans below (h e mem).1, Int.lt_of_lt_of_le (h e mem).2 above⟩

@[simp] theorem bytes_place : (place p bs).bytes = bs := by
  induction bs generalizing p with
  | nil => rfl
  | cons b rest ih =>
      show b :: (place (p + 1) rest).bytes = b :: rest
      rw [ih]

theorem place_within : (place p bs).Within p (p + bs.length) := by
  induction bs generalizing p with
  | nil => exact List.forall_mem_nil _
  | cons b rest ih =>
      rw [List.length_cons]
      intro e mem
      cases mem with
      | head => exact ⟨Int.le_refl p, by show p < _; omega⟩
      | tail _ mem =>
          obtain ⟨lower, upper⟩ := ih e mem
          constructor <;> omega

theorem Within.of_place (within : (place p bs).Within lower upper) (nonempty : bs ≠ []) :
    lower ≤ p ∧ p + bs.length ≤ upper := by
  induction bs generalizing p with
  | nil => exact absurd rfl nonempty
  | cons b rest ih =>
      obtain ⟨first, later⟩ := List.forall_mem_cons.mp within
      cases rest with
      | nil => exact ⟨first.1, first.2⟩
      | cons c rest =>
          have bound := (ih later nofun).2
          rw [List.length_cons]
          exact ⟨first.1, by omega⟩

end Accesses

namespace Memory
open Accesses

def store (m : Memory) : Accesses → Memory
  | [] => m
  | (p, b) :: rest => store (Function.update m p b) rest

def slice (m : Memory) (p : Int) : Nat → List UInt8
  | 0 => []
  | n + 1 => m p :: m.slice (p + 1) n

def load (m : Memory) (p : Int) (n : Nat) : Accesses := place p (m.slice p n)

variable {m m' : Memory} {a b : Accesses} {p q i : Int} {n k : Nat} {bs cs : List UInt8}

theorem store_append : m.store (a ++ b) = store (m.store a) b := by
  induction a generalizing m with
  | nil => rfl
  | cons e a ih => exact ih

theorem store_eq {lower upper : Int} (within : a.Within lower upper)
    (outside : i < lower ∨ upper ≤ i) : m.store a i = m i := by
  induction a generalizing m with
  | nil => rfl
  | cons e rest ih =>
      obtain ⟨inside, within⟩ := List.forall_mem_cons.mp within
      have other : i ≠ e.1 := by omega
      exact (ih within).trans (Function.update_of_ne other _ _)

@[simp] theorem length_slice : (m.slice p n).length = n := by
  induction n generalizing p with
  | zero => rfl
  | succ n ih => rw [slice, List.length_cons, ih]

theorem slice_add : m.slice p (n + k) = m.slice p n ++ m.slice (p + n) k := by
  induction n generalizing p with
  | zero => simp [slice]
  | succ n ih =>
      rw [Nat.add_right_comm, slice, slice, ih, List.cons_append]
      congr 3
      omega

theorem slice_congr (same : ∀ i, p ≤ i → i < p + n → m' i = m i) : m'.slice p n = m.slice p n := by
  induction n generalizing p with
  | zero => rfl
  | succ n ih =>
      rw [slice, slice, same p (by omega) (by omega), ih]
      intro i lower upper
      exact same i (by omega) (by omega)

theorem slice_middle {ds : List UInt8}
    (h : m.slice p (bs ++ cs ++ ds).length = bs ++ cs ++ ds) :
    m.slice (p + bs.length) cs.length = cs := by
  rw [List.length_append, List.length_append, slice_add, slice_add] at h
  have front := (List.append_inj' h (by simp)).1
  exact (List.append_inj front (by simp)).2

theorem take_slice (h : k ≤ n) : (m.slice p n).take k = m.slice p k := by
  obtain ⟨r, rfl⟩ := Nat.exists_eq_add_of_le h
  rw [slice_add, List.take_left' length_slice]

theorem getElem_slice (h : k < (m.slice p n).length) : (m.slice p n)[k] = m (p + k) := by
  induction n generalizing p k with
  | zero => simp [slice] at h
  | succ n ih =>
      cases k with
      | zero => simp [slice]
      | succ k =>
          simp only [slice, List.getElem_cons_succ, ih]
          congr 1
          omega

theorem getElem?_slice (h : k < n) : (m.slice p n)[k]? = some (m (p + k)) := by
  rw [List.getElem?_eq_getElem (by simpa using h), getElem_slice]

theorem eq_of_slice_eq (h : m'.slice p n = m.slice p n) (lower : p ≤ i) (upper : i < p + n) :
    m' i = m i := by
  obtain ⟨k, rfl⟩ := Int.le.dest lower
  apply Option.some.inj
  rw [← getElem?_slice (m := m') (show k < n by omega), h, getElem?_slice (by omega)]

theorem slice_eq_map : m.slice p n = (List.range n).map fun k : Nat => m (p + k) := by
  apply List.ext_getElem
  · simp
  · intro k below _
    rw [getElem_slice, List.getElem_map, List.getElem_range]

theorem slice_place : slice (m.store (place p bs)) p bs.length = bs := by
  induction bs generalizing m p with
  | nil => rfl
  | cons b rest ih =>
      show store (Function.update m p b) (place (p + 1) rest) p ::
        slice (store (Function.update m p b) (place (p + 1) rest)) (p + 1) rest.length = b :: rest
      rw [ih, store_eq place_within (.inl (by omega)), Function.update_self]

theorem store_place (h : k < bs.length) : some (m.store (place p bs) (p + k)) = bs[k]? := by
  rw [← getElem?_slice h, slice_place]

theorem store_place_congr (lower : p ≤ i) (upper : i < p + bs.length) :
    m'.store (place p bs) i = m.store (place p bs) i := by
  obtain ⟨k, rfl⟩ := Int.le.dest lower
  have below : k < bs.length := by omega
  apply Option.some.inj
  rw [store_place below, store_place below]

theorem slice_store {lower upper : Int} (within : a.Within lower upper)
    (apart : p + n ≤ lower ∨ upper ≤ p) : slice (m.store a) p n = m.slice p n :=
  slice_congr fun i _ _ => store_eq within (by omega)

@[simp] theorem bytes_load : (m.load p n).bytes = m.slice p n := bytes_place

theorem load_within : (m.load p n).Within p (p + n) := by
  have within : (m.load p n).Within p (p + (m.slice p n).length) := place_within
  rwa [length_slice] at within

theorem mem_load (below : k < n) : (p + k, m (p + k)) ∈ m.load p n := by
  induction n generalizing p k with
  | zero => exact absurd below k.not_lt_zero
  | succ n ih =>
      show (p + k, m (p + k)) ∈ (p, m p) :: m.load (p + 1) n
      cases k with
      | zero => simp
      | succ k =>
          have shift : p + (k + 1 : Nat) = p + 1 + k := by omega
          rw [shift]
          exact List.mem_cons_of_mem _ (ih (by omega))

/-! ## Strings -/

def addressSpace : Nat := 2 ^ 64

def scan (m : Memory) (p : Int) : Nat → Option Nat
  | 0 => none
  | n + 1 => if m p = 0 then some 0 else (m.scan (p + 1) n).map (· + 1)

def strlen (m : Memory) (p : Int) : Option Nat := m.scan p addressSpace

def string (m : Memory) (p : Int) : Option (List UInt8) := (m.strlen p).map (m.slice p)

theorem scan_eq_some : m.scan p n = some k ↔
    k < n ∧ m (p + k) = 0 ∧ ∀ j < k, m (p + j) ≠ 0 := by
  induction n generalizing p k with
  | zero => simp [scan]
  | succ n ih =>
      rw [scan]
      split
      · rename_i zero
        constructor
        · rintro ⟨⟩
          exact ⟨Nat.succ_pos n, by simpa using zero, fun j below => absurd below j.not_lt_zero⟩
        · rintro ⟨-, -, before⟩
          cases k with
          | zero => rfl
          | succ k => exact absurd (by simpa using zero) (before 0 k.succ_pos)
      · rename_i nonzero
        cases k with
        | zero => simpa using nonzero
        | succ k =>
            have shift (j : Nat) : m (p + (j + 1 : Nat)) = m (p + 1 + j) := by
              congr 1
              omega
            simp only [Option.map_eq_some_iff, Nat.add_right_cancel_iff, exists_eq_right, ih,
              Nat.add_lt_add_iff_right, shift]
            refine and_congr_right fun _ => and_congr_right fun _ => ?_
            constructor
            · intro before j below
              cases j with
              | zero => simpa using nonzero
              | succ j =>
                  rw [shift]
                  exact before j (by omega)
            · intro before j below
              rw [← shift]
              exact before (j + 1) (by omega)

theorem strlen_eq_some : m.strlen p = some n ↔
    n < addressSpace ∧ m (p + n) = 0 ∧ ∀ k < n, m (p + k) ≠ 0 :=
  scan_eq_some

theorem exists_strlen (zero : m (p + n) = 0) (bound : n < addressSpace) :
    ∃ k, m.strlen p = some k ∧ k ≤ n := by
  have some_zero : ∃ k : Nat, m (p + k) = 0 := ⟨n, zero⟩
  have least := Nat.find_min' some_zero zero
  exact ⟨Nat.find some_zero, strlen_eq_some.mpr ⟨by omega, Nat.find_spec some_zero,
    fun k below => Nat.find_min some_zero below⟩, least⟩

theorem strlen_le (h : m.strlen p = some n) (zero : m (p + k) = 0) : n ≤ k := by
  by_contra below
  exact (strlen_eq_some.mp h).2.2 k (Nat.lt_of_not_le below) zero

theorem strlen_congr (h : m.strlen p = some n) (same : ∀ i, p ≤ i → i ≤ p + n → m' i = m i) :
    m'.strlen p = some n := by
  obtain ⟨bound, zero, before⟩ := strlen_eq_some.mp h
  refine strlen_eq_some.mpr ⟨bound, ?_, fun k below => ?_⟩
  · rw [same _ (by omega) (by omega), zero]
  · rw [same _ (by omega) (by omega)]
    exact before k below

theorem slice_of_strlen (h : m.strlen p = some n) :
    m.slice p (n + 1) = m.slice p n ++ [0] ∧ 0 ∉ m.slice p n := by
  obtain ⟨-, zero, before⟩ := strlen_eq_some.mp h
  constructor
  · rw [slice_add]
    simp [slice, zero]
  · intro mem
    obtain ⟨k, below, eq⟩ := List.getElem_of_mem mem
    rw [getElem_slice] at eq
    exact before k (by simpa using below) eq

theorem strlen_of_slice (h : m.slice p (bs.length + 1) = bs ++ [0]) (free : 0 ∉ bs)
    (bound : bs.length < addressSpace) : m.strlen p = some bs.length := by
  have byte (k : Nat) (below : k < bs.length + 1) : some (m (p + k)) = (bs ++ [0])[k]? := by
    rw [← h, getElem?_slice below]
  refine strlen_eq_some.mpr ⟨bound, ?_, fun k below zero => free ?_⟩
  · simpa using byte bs.length (Nat.lt_succ_self _)
  · have here := byte k (Nat.lt_succ_of_lt below)
    rw [List.getElem?_append_left below, zero] at here
    exact List.mem_of_getElem? here.symm

theorem string_of_slice (h : m.slice p (bs.length + 1) = bs ++ [0]) (free : 0 ∉ bs)
    (bound : bs.length < addressSpace) : m.string p = some bs := by
  have text : m.slice p bs.length = bs := by
    rw [← take_slice (Nat.le_succ _), h, List.take_left]
  rw [string, strlen_of_slice h free bound, Option.map_some, text]

end Memory

/-! ## Copies from and to user space -/

structure Copy where
  accesses : Accesses
  left : Nat

/-- What a copy of `len` bytes leaves when `src` is what can be read: zeros after its end. -/
def copied (src : List UInt8) (len : Nat) : List UInt8 :=
  src.take len ++ List.replicate (len - src.length) 0

def copyFromUser (p : Int) (src : List UInt8) (len : Nat) : Copy where
  accesses := .place p (copied src len)
  left := len - src.length

def copyToUser (m : Memory) (p : Int) (len room : Nat) : Copy where
  accesses := m.load p (min len room)
  left := len - room

variable {m : Memory} {p : Int} {src : List UInt8} {len room : Nat}

@[simp] theorem length_copied : (copied src len).length = len := by
  rw [copied, List.length_append, List.length_take, List.length_replicate]
  omega

theorem copied_whole (whole : len ≤ src.length) : copied src len = src.take len := by
  rw [copied, Nat.sub_eq_zero_of_le whole, List.replicate_zero, List.append_nil]

theorem copied_short (short : src.length ≤ len) :
    copied src len = src ++ List.replicate (len - src.length) 0 := by
  rw [copied, List.take_of_length_le short]

theorem copyFromUser_within : (copyFromUser p src len).accesses.Within p (p + len) := by
  have within := @Accesses.place_within p (copied src len)
  rwa [length_copied] at within

theorem copyFromUser_left : (copyFromUser p src len).left = 0 ↔ len ≤ src.length :=
  Nat.sub_eq_zero_iff_le

theorem copyToUser_left : (copyToUser m p len room).left = 0 ↔ len ≤ room :=
  Nat.sub_eq_zero_iff_le

theorem slice_copyFromUser :
    Memory.slice (m.store (copyFromUser p src len).accesses) p len = copied src len := by
  have placed := @Memory.slice_place m p (copied src len)
  rwa [length_copied] at placed

theorem copyFromUser_fill {k : Nat} (short : src.length ≤ k) (below : k < len) :
    m.store (copyFromUser p src len).accesses (p + k) = 0 := by
  have byte : (copied src len)[k]? = some (m.store (copyFromUser p src len).accesses (p + k)) := by
    rw [← slice_copyFromUser (m := m) (p := p), Memory.getElem?_slice below]
  rw [copied_short (Nat.le_of_lt (Nat.lt_of_le_of_lt short below)),
    List.getElem?_append_right short, List.getElem?_replicate_of_lt (by omega)] at byte
  exact (Option.some.inj byte).symm

theorem slice_message (positive : 1 ≤ len) (whole : len ≤ src.length) :
    Memory.slice ((m.store (copyFromUser p src len).accesses).store [(p + len - 1, 0)]) p len =
      src.take (len - 1) ++ [0] := by
  obtain ⟨k, rfl⟩ := Nat.exists_eq_add_of_le' positive
  have last : p + (k + 1 : Nat) - 1 = p + k := by omega
  have front :
      Memory.slice ((m.store (copyFromUser p src (k + 1)).accesses).store [(p + k, 0)]) p k =
      Memory.slice (m.store (copyFromUser p src (k + 1)).accesses) p k :=
    Memory.slice_store (Accesses.within_singleton.mpr ⟨Int.le_refl _, Int.lt_succ _⟩)
      (.inl (Int.le_refl _))
  have zero :
      Memory.store (m.store (copyFromUser p src (k + 1)).accesses) [(p + k, 0)] (p + k) = 0 :=
    Function.update_self ..
  rw [last, Memory.slice_add, front, ← Memory.take_slice (Nat.le_succ k), slice_copyFromUser,
    copied_whole whole, List.take_take, Nat.min_eq_left (Nat.le_succ k), Memory.slice, Memory.slice,
    zero]
  rfl

theorem take_fill (k : Nat) :
    (src ++ List.replicate (k + 1) 0).take ((cstring src).length + 1) =
      cstring src ++ [0] := by
  induction src with
  | nil => simp [cstring, List.replicate_succ]
  | cons b rest ih =>
      by_cases zero : b = 0
      · simp [cstring, zero]
      · have step : cstring (b :: rest) = b :: cstring rest :=
          List.takeWhile_cons_of_pos (by simpa using zero)
        rw [step, List.length_cons, List.cons_append, List.take_succ_cons, ih, List.cons_append]

theorem slice_cstring (short : src.length < len) :
    Memory.slice (m.store (copyFromUser p src len).accesses) p ((cstring src).length + 1) =
      cstring src ++ [0] := by
  obtain ⟨k, rfl⟩ := Nat.exists_eq_add_of_lt short
  have le : (cstring src).length + 1 ≤ src.length + k + 1 := by
    have := length_cstring_le src
    omega
  rw [← Memory.take_slice le, slice_copyFromUser, copied_short (Nat.le_of_lt short),
    show src.length + k + 1 - src.length = k + 1 by omega, take_fill]

theorem bytes_copyToUser (fits : len ≤ room) :
    (copyToUser m p len room).accesses.bytes = m.slice p len := by
  rw [copyToUser, Memory.bytes_load, Nat.min_eq_left fits]

theorem copyToUser_within : (copyToUser m p len room).accesses.Within p (p + len) :=
  Memory.load_within.mono (Int.le_refl p) (by omega)

end OsUnix.Kernel
