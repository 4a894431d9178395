import Mathlib.Algebra.Ring.Nat
import Mathlib.Data.List.TakeWhile

/-!
# Tokens

`strtok` with one delimiter: what it gives back of a line of tokens, and how much of its input the
tokens take up.
-/

namespace OsUnix.Kernel

variable {α : Type*} [DecidableEq α]

/-- The next token, and the input behind the delimiter that ends it. -/
def strtok (sep : α) (input : List α) : Option (List α × List α) :=
  match input.dropWhile (· = sep) with
  | [] => none
  | first :: rest =>
      some (first :: rest.takeWhile (· ≠ sep), (rest.dropWhile (· ≠ sep)).drop 1)

def tokens (sep : α) : Nat → List α → List (List α)
  | 0, _ => []
  | n + 1, input =>
      match strtok sep input with
      | none => []
      | some (token, rest) => token :: tokens sep n rest

variable {sep : α} {input token rest : List α} {fields : List (List α)} {n : Nat}

theorem not_mem_of_strtok (h : strtok sep input = some (token, rest)) : sep ∉ token := by
  unfold strtok at h
  split at h
  · cases h
  · rename_i first more eq
    cases h
    have head : first ≠ sep := by
      have := List.head?_dropWhile_not (· = sep) input
      rw [eq] at this
      simpa using this
    rw [List.mem_cons, not_or]
    refine ⟨head.symm, fun mem => ?_⟩
    have := List.all_eq_true.mp List.all_takeWhile sep mem
    simp at this

theorem length_of_strtok (h : strtok sep input = some (token, rest)) :
    token.length + rest.length + 1 ≤ input.length ∨ rest = [] ∧ token.length ≤ input.length := by
  unfold strtok at h
  split at h
  · cases h
  · rename_i first more eq
    cases h
    have skipped : (first :: more).length ≤ input.length := by
      rw [← eq]
      exact (List.dropWhile_sublist _).length_le
    have split : (more.takeWhile (· ≠ sep)).length + (more.dropWhile (· ≠ sep)).length =
        more.length := by
      rw [← List.length_append, List.takeWhile_append_dropWhile]
    rw [List.length_cons] at skipped ⊢
    cases behind : more.dropWhile (· ≠ sep) with
    | nil => exact .inr ⟨rfl, by omega⟩
    | cons c later =>
        rw [behind, List.length_cons] at split
        refine .inl ?_
        rw [List.drop_one, List.tail_cons]
        omega

theorem not_mem_of_mem_tokens (mem : token ∈ tokens sep n input) : sep ∉ token := by
  induction n generalizing input with
  | zero => cases mem
  | succ n ih =>
      unfold tokens at mem
      split at mem
      · cases mem
      · rename_i first rest next
        rcases List.mem_cons.mp mem with rfl | mem
        · exact not_mem_of_strtok next
        · exact ih mem

theorem length_tokens_le : (tokens sep n input).length ≤ n := by
  induction n generalizing input with
  | zero => exact Nat.le_refl 0
  | succ n ih =>
      rw [tokens]
      cases strtok sep input with
      | none => exact Nat.zero_le _
      | some next => exact Nat.succ_le_succ ih

theorem size_tokens_le :
    ((tokens sep n input).map fun t => t.length + 1).sum ≤ input.length + 1 := by
  induction n generalizing input with
  | zero => exact Nat.zero_le _
  | succ n ih =>
      unfold tokens
      split
      · exact Nat.zero_le _
      · rename_i token rest next
        rw [List.map_cons, List.sum_cons]
        rcases length_of_strtok next with inside | ⟨rfl, ends⟩
        · have := @ih rest
          omega
        · have none : tokens sep n ([] : List α) = [] := by cases n <;> rfl
          rw [none, List.map_nil, List.sum_nil]
          omega

omit [DecidableEq α] in
theorem length_intercalate (some_field : fields ≠ []) :
    (List.intercalate [sep] fields).length + 1 = (fields.map fun f => f.length + 1).sum := by
  induction fields with
  | nil => exact absurd rfl some_field
  | cons f rest ih =>
      cases rest with
      | nil => simp
      | cons g rest =>
          have later := ih nofun
          rw [List.intercalate_cons_cons, List.map_cons, List.sum_cons, ← later]
          simp only [List.length_append, List.length_singleton]
          omega

omit [DecidableEq α] in
theorem mem_intercalate {c : α} (mem : c ∈ List.intercalate [sep] fields) :
    c = sep ∨ ∃ f ∈ fields, c ∈ f := by
  induction fields with
  | nil => cases mem
  | cons f rest ih =>
      cases rest with
      | nil => exact .inr ⟨f, List.mem_cons_self, by simpa using mem⟩
      | cons g rest =>
          rw [List.intercalate_cons_cons, List.mem_append, List.mem_append,
            List.mem_singleton] at mem
          rcases mem with (here | delimiter) | later
          · exact .inr ⟨f, List.mem_cons_self, here⟩
          · exact .inl delimiter
          · refine (ih later).imp_right ?_
            rintro ⟨f', mem, inside⟩
            exact ⟨f', List.mem_cons_of_mem f mem, inside⟩

def words (sep : α) (input : List α) : List (List α) := (input.splitOn sep).filter (· ≠ [])

@[simp] theorem words_nil : words sep [] = [] := by simp [words]

theorem words_append : words sep (input ++ sep :: rest) = words sep input ++ words sep rest := by
  rw [words, List.splitOn_append_cons_self, List.filter_append]
  rfl

@[simp] theorem words_cons_sep : words sep (sep :: rest) = words sep rest :=
  @words_append _ _ _ [] _

theorem words_of_not_mem (nonempty : token ≠ []) (free : sep ∉ token) :
    words sep token = [token] := by
  simp [words, List.splitOn_eq_singleton free, nonempty]

theorem words_dropWhile : words sep (input.dropWhile (· = sep)) = words sep input := by
  induction input with
  | nil => rfl
  | cons c input ih =>
      by_cases same : c = sep
      · subst same
        simp [ih]
      · rw [List.dropWhile_cons_of_neg (by simpa using same)]

theorem words_of_strtok (h : strtok sep input = some (token, rest)) :
    words sep input = token :: words sep rest := by
  have free := not_mem_of_strtok h
  rw [← words_dropWhile]
  unfold strtok at h
  split at h
  · cases h
  · rename_i first more eq
    cases h
    rw [eq]
    have whole : more.takeWhile (· ≠ sep) ++ more.dropWhile (· ≠ sep) = more :=
      List.takeWhile_append_dropWhile
    conv => lhs; rw [← whole]
    cases behind : more.dropWhile (· ≠ sep) with
    | nil => simpa using words_of_not_mem (List.cons_ne_nil _ _) free
    | cons c later =>
        have delimiter : c = sep := by
          have := List.head?_dropWhile_not (· ≠ sep) more
          rw [behind] at this
          simpa using this
        subst delimiter
        rw [← List.cons_append, words_append, words_of_not_mem (List.cons_ne_nil _ _) free]
        rfl

theorem words_of_strtok_none (h : strtok sep input = none) : words sep input = [] := by
  rw [← words_dropWhile]
  unfold strtok at h
  split at h
  · rename_i eq
    rw [eq, words_nil]
  · cases h

theorem tokens_eq_take : tokens sep n input = (words sep input).take n := by
  induction n generalizing input with
  | zero => rfl
  | succ n ih =>
      rw [tokens]
      cases next : strtok sep input with
      | none => rw [words_of_strtok_none next, List.take_nil]
      | some next' =>
          rw [words_of_strtok next, List.take_succ_cons]
          exact congrArg _ ih

theorem words_intercalate (nonempty : ∀ f ∈ fields, f ≠ []) (free : ∀ f ∈ fields, sep ∉ f) :
    words sep (List.intercalate [sep] fields) = fields := by
  induction fields with
  | nil => exact words_nil
  | cons f rest ih =>
      obtain ⟨here, nonempty⟩ := List.forall_mem_cons.mp nonempty
      obtain ⟨free_here, free⟩ := List.forall_mem_cons.mp free
      cases rest with
      | nil => rw [List.intercalate_singleton, words_of_not_mem here free_here]
      | cons g rest =>
          rw [List.intercalate_cons_cons, List.append_assoc, List.singleton_append, words_append,
            words_of_not_mem here free_here, ih nonempty free]
          rfl

theorem tokens_intercalate (nonempty : ∀ f ∈ fields, f ≠ []) (free : ∀ f ∈ fields, sep ∉ f) :
    tokens sep fields.length (List.intercalate [sep] fields) = fields := by
  rw [tokens_eq_take, words_intercalate nonempty free, List.take_length]

omit [DecidableEq α] in
theorem split_induction {motive : List α → Prop} (sep : α)
    (whole : ∀ input, sep ∉ input → motive input)
    (split : ∀ first second, motive first → motive second → motive (first ++ sep :: second))
    (input : List α) : motive input := by
  induction length : input.length using Nat.strongRecOn generalizing input with
  | ind n ih =>
      by_cases mem : sep ∈ input
      · obtain ⟨first, second, rfl⟩ := List.append_of_mem mem
        rw [List.length_append, List.length_cons] at length
        exact split first second (ih _ (by omega) _ rfl) (ih _ (by omega) _ rfl)
      · exact whole input mem

theorem size_words : ((words sep input).map List.length).sum = input.countP (· ≠ sep) := by
  induction input using split_induction sep with
  | whole input free =>
      by_cases empty : input = []
      · subst empty
        rfl
      · rw [words_of_not_mem empty free, List.map_singleton, List.sum_singleton, eq_comm,
          List.countP_eq_length]
        exact fun c inside => decide_eq_true fun same => free (same ▸ inside)
  | split first second ih₁ ih₂ =>
      rw [words_append, List.map_append, List.sum_append, ih₁, ih₂, List.countP_append,
        List.countP_cons_of_neg (by simp)]

theorem mem_of_mem_words {c : α} (mem : token ∈ words sep input) (inside : c ∈ token) :
    c ∈ input := by
  induction input using split_induction sep with
  | whole input free =>
      by_cases empty : input = []
      · subst empty
        simp at mem
      · rw [words_of_not_mem empty free, List.mem_singleton] at mem
        exact mem ▸ inside
  | split first second ih₁ ih₂ =>
      rw [words_append, List.mem_append] at mem
      rcases mem with mem | mem
      · exact List.mem_append_left _ (ih₁ mem)
      · exact List.mem_append_right _ (List.mem_cons_of_mem _ (ih₂ mem))

end OsUnix.Kernel
