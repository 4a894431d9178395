import OsUnix.Kernel.Integer
import OsUnix.Kernel.Text
import Mathlib.Data.UInt
import Mathlib.Tactic.Ring

/-!
# Decimal numerals

What `%d` prints for a number that is not negative, and what `atoi` reads.
-/

namespace OsUnix.Kernel

def decimal (n : Nat) : List UInt8 := (Nat.toDigits 10 n).map fun c => c.toUInt8

def isDigit (b : UInt8) : Bool := 48 ≤ b.toNat && b.toNat ≤ 57

def number (bs : List UInt8) : Nat := bs.foldl (fun v b => 10 * v + (b.toNat - 48)) 0

def signed (bs : List UInt8) : Int :=
  match bs.dropWhile isSpace with
  | [] => 0
  | b :: rest =>
      if b = 45 then -(number (rest.takeWhile isDigit))
      else if b = 43 then number (rest.takeWhile isDigit)
      else number ((b :: rest).takeWhile isDigit)

/-- To base ten. Out of the range of `long` it gives the nearest end of the range. -/
def strtol (bs : List UInt8) : Int := max (-2 ^ 63) (min (signed bs) (2 ^ 63 - 1))

/-- `strtol` has then set `errno` to `ERANGE`. -/
def outOfRange (bs : List UInt8) : Bool := strtol bs != signed bs

def atoi (bs : List UInt8) : Int := toInt (strtol bs)

variable {n m : Nat} {as bs : List UInt8} {b : UInt8} {c : Char}

theorem toNat_digit (digit : c.isDigit = true) :
    c.toUInt8.toNat = c.toNat ∧ 48 ≤ c.toNat ∧ c.toNat ≤ 57 := by
  have bounds : 48 ≤ c.toNat ∧ c.toNat ≤ 57 := Char.isDigit_iff_toNat.mp digit
  refine ⟨?_, bounds⟩
  rw [Char.toUInt8, UInt32.toNat_toUInt8]
  exact Nat.mod_eq_of_lt (Nat.lt_of_le_of_lt bounds.2 (by decide))

theorem isDigit_of_mem_toDigits (mem : c ∈ Nat.toDigits 10 n) : c.isDigit = true :=
  Nat.isDigit_of_mem_toDigits (by decide : 0 < 10) (by decide) mem

theorem isDigit_decimal (mem : b ∈ decimal n) : isDigit b = true := by
  obtain ⟨c, char, rfl⟩ := List.mem_map.mp mem
  obtain ⟨value, lower, upper⟩ := toNat_digit (isDigit_of_mem_toDigits char)
  simp [isDigit, value, lower, upper]

theorem decimal_ne_nil : decimal n ≠ [] := by
  simp [decimal]

theorem length_decimal_le (positive : 0 < m) : (decimal n).length ≤ m ↔ n < 10 ^ m := by
  rw [decimal, List.length_map, Nat.length_toDigits_le_iff (by decide) positive]

theorem foldl_number (v : Nat) :
    bs.foldl (fun v b => 10 * v + (b.toNat - 48)) v = v * 10 ^ bs.length + number bs := by
  induction bs generalizing v with
  | nil => simp [number]
  | cons b rest ih =>
      rw [number, List.foldl_cons, List.foldl_cons, ih, ih (10 * 0 + _), List.length_cons,
        Nat.pow_succ]
      ring

theorem number_append : number (as ++ bs) = number as * 10 ^ bs.length + number bs := by
  rw [number, List.foldl_append, foldl_number]
  rfl

@[simp] theorem number_decimal : number (decimal n) = n := by
  have digits (cs : List Char) (all : ∀ c ∈ cs, c.isDigit = true) (v : Nat) :
      (cs.map fun c => c.toUInt8).foldl (fun v b => 10 * v + (b.toNat - 48)) v =
        Nat.ofDigitChars 10 cs v := by
    induction cs generalizing v with
    | nil => simp
    | cons c rest ih =>
        obtain ⟨digit, all⟩ := List.forall_mem_cons.mp all
        rw [List.map_cons, List.foldl_cons, (toNat_digit digit).1, ih all, Nat.ofDigitChars_cons]
        rfl
  rw [number, decimal, digits _ fun c mem => isDigit_of_mem_toDigits mem,
    Nat.ofDigitChars_ten_toDigits]

theorem isDigit_iff : isDigit b = true ↔ 48 ≤ b.toNat ∧ b.toNat ≤ 57 := by
  simp [isDigit]

theorem number_cons : number (b :: bs) = (b.toNat - 48) * 10 ^ bs.length + number bs := by
  rw [← List.singleton_append, number_append]
  simp [number]

theorem number_lt (digits : ∀ b ∈ bs, isDigit b = true) : number bs < 10 ^ bs.length := by
  induction bs with
  | nil => decide
  | cons b rest ih =>
      obtain ⟨digit, digits⟩ := List.forall_mem_cons.mp digits
      obtain ⟨lower, upper⟩ := isDigit_iff.mp digit
      have below := ih digits
      have first : (b.toNat - 48) * 10 ^ rest.length ≤ 9 * 10 ^ rest.length :=
        Nat.mul_le_mul_right _ (by omega)
      rw [number_cons, List.length_cons, Nat.pow_succ]
      omega

theorem zero_not_head_decimal (positive : 0 < n) : (decimal n).head? ≠ some 48 := by
  intro head
  obtain ⟨rest, eq⟩ := List.head?_eq_some_iff.mp head
  have digits : ∀ b ∈ rest, isDigit b = true := fun b mem =>
    isDigit_decimal (n := n) (by rw [eq]; exact List.mem_cons_of_mem _ mem)
  have value : n = number rest := by
    rw [← number_decimal (n := n), eq, number_cons]
    simp
  have below := number_lt digits
  rw [← value] at below
  rcases Nat.eq_zero_or_pos rest.length with none | some_digits
  · rw [none] at below
    omega
  · have short := (length_decimal_le some_digits).mpr below
    rw [eq, List.length_cons] at short
    omega

theorem decimal_digit (digit : isDigit b = true) : decimal (b.toNat - 48) = [b] := by
  obtain ⟨lower, upper⟩ := isDigit_iff.mp digit
  have below : b.toNat - 48 < 10 := by omega
  have char : (b.toNat - 48).digitChar.isDigit = true := by simpa using below
  have value := Nat.toNat_digitChar_sub_48_of_lt_ten below
  obtain ⟨byte, from_zero, -⟩ := toNat_digit char
  have same : (b.toNat - 48).digitChar.toUInt8 = b := UInt8.toNat_inj.mp (by omega)
  rw [decimal, Nat.toDigits_of_lt_base below, List.map_singleton, same]

theorem decimal_append (positive : 0 < n) (digit : isDigit b = true) :
    decimal (10 * n + (b.toNat - 48)) = decimal n ++ [b] := by
  have below : b.toNat - 48 < 10 := by
    have := (isDigit_iff.mp digit).2
    omega
  rw [← decimal_digit digit, decimal, decimal, decimal, ← List.map_append,
    Nat.toDigits_append_toDigits (by decide) positive below]

theorem decimal_number (digits : ∀ b ∈ bs, isDigit b = true) (nonempty : bs ≠ [])
    (head : bs.head? ≠ some 48) : decimal (number bs) = bs := by
  induction bs using List.reverseRecOn with
  | nil => exact absurd rfl nonempty
  | append_singleton front b ih =>
      obtain ⟨before, last⟩ := List.forall_mem_append.mp digits
      have digit := List.forall_mem_singleton.mp last
      have value : number (front ++ [b]) = 10 * number front + (b.toNat - 48) := by
        rw [number_append, number_cons]
        simp [number, Nat.mul_comm]
      rw [value]
      by_cases none : front = []
      · subst none
        simpa [number] using decimal_digit digit
      · rw [List.head?_append_of_ne_nil _ none] at head
        have front_eq := ih before none head
        rcases Nat.eq_zero_or_pos (number front) with zero | positive
        · rw [zero] at front_eq
          rw [← front_eq] at head
          exact absurd rfl head
        · rw [decimal_append positive digit, front_eq]

theorem signed_digits (digits : ∀ b ∈ as, isDigit b = true) (nonempty : as ≠ []) :
    signed (as ++ bs) = number (as ++ bs.takeWhile isDigit) := by
  cases as with
  | nil => exact absurd rfl nonempty
  | cons b rest =>
      obtain ⟨lower, upper⟩ := isDigit_iff.mp (List.forall_mem_cons.mp digits).1
      have not_space : isSpace b = false := by
        simp only [isSpace, Bool.or_eq_false_iff, Bool.and_eq_false_iff, decide_eq_false_iff_not,
          beq_eq_false_iff_ne]
        omega
      have not_minus : b ≠ 45 := by
        rintro rfl
        exact absurd lower (by decide)
      have not_plus : b ≠ 43 := by
        rintro rfl
        exact absurd lower (by decide)
      rw [signed, List.cons_append, List.dropWhile_cons_of_neg (by simp [not_space])]
      simp only [if_neg not_minus, if_neg not_plus]
      rw [← List.cons_append, List.takeWhile_append_of_pos digits]

theorem atoi_eq (positive : 0 < n) (small : n < 2 ^ 31) (value : signed bs = m) :
    atoi bs = n ↔ m = n ∨ 2 ^ 32 ≤ m ∧ m < 2 ^ 63 ∧ m % 2 ^ 32 = n := by
  rw [atoi, strtol, value]
  unfold toInt
  omega

theorem toList_loop (bs : ByteArray) (i : Nat) (r : List UInt8) :
    ByteArray.toList.loop bs i r = r.reverse ++ bs.data.toList.drop i := by
  fun_induction ByteArray.toList.loop bs i r with
  | case1 i r below ih =>
      have bound : i < bs.data.toList.length := below
      have byte : bs.get! i = bs.data.toList[i] := by
        show bs.data[i]! = _
        rw [getElem!_pos bs.data i below, Array.getElem_toList]
      rw [ih, List.drop_eq_getElem_cons bound, byte, List.reverse_cons, List.append_assoc]
      rfl
  | case2 i r above =>
      rw [List.drop_eq_nil_of_le (Nat.le_of_not_lt above), List.append_nil]

theorem length_toUTF8 (s : String) : s.toUTF8.toList.length = s.utf8ByteSize := by
  show (ByteArray.toList.loop s.toUTF8 0 []).length = _
  rw [toList_loop]
  rfl

theorem bytes_toString : (toString (n : Int)).toUTF8.toList = decimal n := by
  have chars (cs : List Char) (all : ∀ c ∈ cs, c.isDigit = true) :
      cs.flatMap String.utf8EncodeChar = cs.map Char.toUInt8 := by
    induction cs with
    | nil => rfl
    | cons c rest ih =>
        obtain ⟨digit, all⟩ := List.forall_mem_cons.mp all
        have ascii : c.utf8Size = 1 := Char.utf8Size_eq_one_iff.mpr
          (UInt32.le_iff_toNat_le.mpr (Nat.le_trans (toNat_digit digit).2.2 (by decide)))
        rw [List.flatMap_cons, String.utf8EncodeChar_eq_singleton ascii, ih all]
        rfl
  show ByteArray.toList.loop (n.repr).toUTF8 0 [] = _
  rw [toList_loop, Nat.repr_eq_ofList_toDigits, String.toUTF8_eq_toByteArray,
    String.toByteArray_ofList, List.utf8Encode, List.toList_data_toByteArray,
    chars _ fun c mem => isDigit_of_mem_toDigits mem]
  rfl

end OsUnix.Kernel
