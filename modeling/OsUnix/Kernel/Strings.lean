import OsUnix.Kernel.Memory
import Mathlib.Tactic.Common

/-!
# Strings one after the other

A list of strings laid out in memory, each with its terminating zero.
-/

namespace OsUnix.Kernel

def layout (cs : List (List UInt8)) : List UInt8 := cs.flatMap (· ++ [0])

variable {cs ds : List (List UInt8)} {c : List UInt8} {m : Memory} {j k : Nat}

@[simp] theorem layout_nil : layout [] = [] := rfl

@[simp] theorem layout_cons : layout (c :: cs) = c ++ [0] ++ layout cs := List.flatMap_cons

theorem layout_append : layout (cs ++ ds) = layout cs ++ layout ds :=
  List.flatMap_append

theorem layout_concat : layout (cs ++ [c]) = layout cs ++ (c ++ [0]) := by
  rw [layout_append, layout_cons, layout_nil, List.append_nil]

theorem layout_middle : layout (cs ++ c :: ds) = layout cs ++ (c ++ [0]) ++ layout ds := by
  rw [layout_append, layout_cons, List.append_assoc (layout cs)]

theorem layout_split (h : j < cs.length) :
    layout cs = layout (cs.take j) ++ (cs[j] ++ [0]) ++ layout (cs.drop (j + 1)) := by
  conv_lhs => rw [← List.take_append_drop j cs, List.drop_eq_getElem_cons h]
  rw [layout_middle]

theorem layout_take_succ (h : j < cs.length) :
    (layout (cs.take (j + 1))).length = (layout (cs.take j)).length + cs[j].length + 1 := by
  rw [List.take_succ_eq_append_getElem h, layout_concat]
  simp [Nat.add_assoc]

theorem length_layout_take_lt (h : j < cs.length) :
    (layout (cs.take j)).length < (layout cs).length := by
  rw [layout_split h]
  simp only [List.length_append, List.length_singleton]
  omega

theorem length_le_layout (mem : c ∈ cs) : c.length ≤ (layout cs).length := by
  obtain ⟨j, bound, rfl⟩ := List.getElem_of_mem mem
  rw [layout_split bound]
  simp only [List.length_append]
  omega

theorem layout_eq_nil (h : (layout cs).length = 0) : cs = [] := by
  cases cs with
  | nil => rfl
  | cons c rest => simp at h

theorem slice_layout_middle
    (h : m.slice 0 (layout (cs ++ c :: ds)).length = layout (cs ++ c :: ds)) :
    m.slice (layout cs).length (c.length + 1) = c ++ [0] := by
  rw [layout_middle] at h
  have here := Memory.slice_middle h
  rwa [Int.zero_add, List.length_append, List.length_singleton] at here

theorem strlen_layout_middle
    (h : m.slice 0 (layout (cs ++ c :: ds)).length = layout (cs ++ c :: ds))
    (free : 0 ∉ c) (small : (layout (cs ++ c :: ds)).length < Memory.addressSpace) :
    m.strlen (layout cs).length = some c.length := by
  apply Memory.strlen_of_slice (slice_layout_middle h) free
  rw [layout_middle] at small
  simp only [List.length_append] at small
  omega

theorem slice_layout (h : m.slice 0 (layout cs).length = layout cs) (bound : j < cs.length) :
    m.slice (layout (cs.take j)).length (cs[j].length + 1) = cs[j] ++ [0] := by
  apply @slice_layout_middle _ (cs.drop (j + 1))
  rwa [← List.drop_eq_getElem_cons bound, List.take_append_drop]

end OsUnix.Kernel
