import OsUnix.BoundedBuffer.Segment

/-!
# The letters

`fork` gives every producer its own `output`. A deposit carries the number of deposits that the same
producer made before it, and not the number of all earlier deposits.
-/

namespace OsUnix.BoundedBuffer
open Concurrency Finset

variable {c : Setup} {s t : State c} {k : c.Process}

def deposits {ι : Type*} (trace : List (ι × Action)) : List (ι × Int) :=
  trace.filterMap fun e => (writtenItem e.2).map fun value => (e.1, value)

@[simp] theorem deposits_snoc {ι : Type*} (trace : List (ι × Action)) (k : ι) (a : Action) :
    deposits (trace ++ [(k, a)]) =
      deposits trace ++ ((writtenItem a).map fun value => (k, value)).toList := by
  simp only [deposits, List.filterMap_append, List.filterMap_cons, List.filterMap_nil]
  cases writtenItem a <;> rfl

theorem written_eq_map {ι : Type*} (trace : List (ι × Action)) :
    written trace = (deposits trace).map Prod.snd := by
  simp only [written, deposits, List.map_filterMap, Option.map_map]
  congr
  funext e
  cases writtenItem e.2 <;> rfl

structure OneAlphabet (s : State c) : Prop where
  letter : ∀ j (h : j < (deposits s.trace).length), 97 + j < 128 →
    (deposits s.trace)[j].2 = 97 + j
  distinct : ∀ i j (hi : i < (deposits s.trace).length) (hj : j < (deposits s.trace).length),
    97 + i < 128 → 97 + j < 128 → i ≠ j → (deposits s.trace)[i].2 ≠ (deposits s.trace)[j].2

def Local.printing : Local → Bool
  | .producer .printPos _ _ _ | .producer .printIndex _ _ _ | .producer (.printItem _) _ _ _
  | .producer .incLoad _ _ _ => true
  | _ => false

def Local.letter : Local → Int
  | .producer _ _ _ output => output
  | .consumer _ _ _ => 97

def madeBy (ds : List (c.Process × Int)) (k : c.Process) : Nat :=
  ds.countP fun d => d.1 = k

theorem madeBy_append_self (ds : List (c.Process × Int)) (k : c.Process) (value : Int) :
    madeBy (ds ++ [(k, value)]) k = madeBy ds k + 1 := by
  simp [madeBy, List.countP_append]

theorem madeBy_append_other (ds : List (c.Process × Int)) {j k : c.Process} (other : j ≠ k)
    (value : Int) : madeBy (ds ++ [(k, value)]) j = madeBy ds j := by
  simp [madeBy, List.countP_append, other.symm]

structure OwnAlphabets (s : State c) : Prop where
  letter : ∀ k, (s.locals k).letter + ((s.locals k).printing).toNat =
    97 + madeBy (deposits s.trace) k
  value : ∀ j (h : j < (deposits s.trace).length), (deposits s.trace)[j].2 =
    toChar (97 + madeBy ((deposits s.trace).take j) (deposits s.trace)[j].1)

theorem OwnAlphabets.quiet {g : Shared} {l : Local} {a : Action} (alphabets : OwnAlphabets s)
    (nothing : writtenItem a = none)
    (same : l.letter + (l.printing).toNat =
      (s.locals k).letter + ((s.locals k).printing).toNat) :
    OwnAlphabets (s.move k g l a) := by
  obtain ⟨letter, value⟩ := alphabets
  have deposited : deposits (s.move k g l a).trace = deposits s.trace := by simp [nothing]
  refine ⟨fun j => ?_, fun j h => ?_⟩
  · rw [deposited]
    by_cases eq : j = k
    · subst eq
      simpa [same] using letter j
    · simpa [eq] using letter j
  · simp only [deposited] at h ⊢
    exact value j h

theorem OwnAlphabets.deposit {g : Shared} {pos output : Int} {i count : Nat}
    (alphabets : OwnAlphabets s) (nonneg : 0 ≤ pos)
    (at_k : s.locals k = .producer (.item pos) i count output) :
    OwnAlphabets (s.move k g (.producer .printPos i count output)
      (.store (shmBuffer + pos) (toChar output))) := by
  obtain ⟨letter, value⟩ := alphabets
  have output_eq : output = 97 + madeBy (deposits s.trace) k := by
    simpa [at_k, Local.letter, Local.printing] using letter k
  have deposited : deposits (s.trace ++ [(k, .store (shmBuffer + pos) (toChar output))]) =
      deposits s.trace ++ [(k, toChar output)] := by
    simp [writtenItem_item nonneg]
  refine ⟨fun j => ?_, fun j h => ?_⟩
  · rw [Config.move_trace, deposited]
    by_cases eq : j = k
    · subst eq
      rw [madeBy_append_self]
      simp only [Config.move_locals, Function.update_self, Local.letter, Local.printing,
        Bool.toNat_true]
      omega
    · rw [madeBy_append_other _ eq]
      simpa [eq] using letter j
  · simp only [Config.move_trace, deposited, List.length_append, List.length_singleton] at h ⊢
    by_cases old : j < (deposits s.trace).length
    · rw [List.getElem_append_left old, List.take_append_of_le_length old.le]
      exact value j old
    · obtain rfl : j = (deposits s.trace).length := by omega
      simp [← output_eq]

theorem ownAlphabets (h : c.system.Reachable s) : OwnAlphabets s := by
  refine h.preserved (I := OwnAlphabets) ⟨?_, ?_⟩ ?_
  · rintro (k | k) <;> rfl
  · intro j h
    simp [deposits] at h
  · intro s k t reach alphabets next
    obtain ⟨g, l, a, move, rfl⟩ := next_cases next
    have nonneg := (sound reach).posProducer
    generalize before : s.locals k = l₀ at move
    cases move with
    | @item pos i count output =>
        have current : pos = s.shared.mem shmPosProducer := current_at reach before
        exact alphabets.deposit (by omega) before
    | producerIncLoad =>
        apply alphabets.quiet rfl
        simp only [before, Local.letter, Local.printing, Bool.toNat_false, Bool.toNat_true]
        omega
    | producerIncStore => exact alphabets.quiet (by simp [writtenItem]) (by rw [before]; rfl)
    | consumerIncStore => exact alphabets.quiet (by simp [writtenItem]) (by rw [before]; rfl)
    | _ => exact alphabets.quiet rfl (by rw [before]; rfl)

theorem toChar_ascii {x : Int} (nonneg : 0 ≤ x) (ascii : x < 128) : toChar x = x :=
  Int.bmod_eq_of_le (by omega) (by omega)

theorem madeBy_take_le (ds : List (c.Process × Int)) (j : Nat) (k : c.Process) :
    madeBy (ds.take j) k ≤ j :=
  List.countP_le_length.trans (List.length_take_le _ _)

def OneDepositor (s : State c) : Prop :=
  ∀ i j (hi : i < (deposits s.trace).length) (hj : j < (deposits s.trace).length),
    97 + i < 128 → 97 + j < 128 → (deposits s.trace)[i].1 = (deposits s.trace)[j].1

theorem OneAlphabet.oneDepositor (h : c.system.Reachable s) (alphabet : OneAlphabet s) :
    OneDepositor s := by
  have earlier (i j : Nat) (hj : j < (deposits s.trace).length) (before : i < j)
      (ascii : 97 + j < 128) : (deposits s.trace)[i].1 = (deposits s.trace)[j].1 := by
    have value := (ownAlphabets h).value j hj
    have few := madeBy_take_le (deposits s.trace) j (deposits s.trace)[j].1
    rw [alphabet.letter j hj ascii, toChar_ascii (by omega) (by omega)] at value
    have all : madeBy ((deposits s.trace).take j) (deposits s.trace)[j].1 =
        ((deposits s.trace).take j).length := by
      rw [List.length_take]
      omega
    have same := List.countP_eq_length.mp all ((deposits s.trace)[i])
      (List.mem_take_iff_getElem.mpr ⟨i, by omega, rfl⟩)
    simpa using same
  intro i j hi hj hi' hj'
  rcases Nat.lt_trichotomy i j with lt | rfl | gt
  · exact earlier i j hj lt hj'
  · rfl
  · exact (earlier j i hi gt hi').symm

theorem OneDepositor.oneAlphabet (h : c.system.Reachable s) (one : OneDepositor s) :
    OneAlphabet s := by
  have letter (j : Nat) (hj : j < (deposits s.trace).length) (ascii : 97 + j < 128) :
      (deposits s.trace)[j].2 = 97 + j := by
    have all : madeBy ((deposits s.trace).take j) (deposits s.trace)[j].1 =
        ((deposits s.trace).take j).length := by
      refine List.countP_eq_length.mpr fun d member => ?_
      obtain ⟨i, bound, rfl⟩ := List.mem_take_iff_getElem.mp member
      simpa using one i j (by omega) hj (by omega) ascii
    rw [List.length_take, Nat.min_eq_left hj.le] at all
    rw [(ownAlphabets h).value j hj, all, toChar_ascii (by omega) (by omega)]
  refine ⟨letter, fun i j hi hj hi' hj' ne => ?_⟩
  rw [letter i hi hi', letter j hj hj']
  omega

theorem got_le {l : Local} (loop : l.InLoop) (role : l.consuming = true) : l.got ≤ l.limit := by
  cases l with
  | producer pc i count output => cases role
  | consumer pc i count =>
      cases pc <;>
        simp [Local.InLoop, Local.got, Local.limit, Local.taken, Local.inside, Local.taking]
          at loop ⊢ <;> omega

theorem consumed_le_wanted (h : c.system.Reachable s) :
    (consumed s.trace).length ≤ c.wanted := by
  rw [consumed_length_consumers h]
  refine sum_le_sum fun j _ => ?_
  obtain ⟨loop, limit⟩ := inLoop h (.inr j)
  exact (got_le loop (consuming_eq h _)).trans limit.le

theorem slots_accounting (h : c.system.Reachable s) :
    (written s.trace).length ≤ (consumed s.trace).length + c.n ∧
      count Local.filling s.locals ≤ c.n := by
  have empty := empty_accounting h
  have full := full_accounting h
  omega

theorem deposit_owner (h : c.system.Reachable s) : ∀ d ∈ deposits s.trace,
    0 < c.n ∧ ∃ j, d.1 = .inl j ∧ 0 < c.producerCount j := by
  apply h.preserved (I := fun s => ∀ d ∈ deposits s.trace,
    0 < c.n ∧ ∃ j, d.1 = .inl j ∧ 0 < c.producerCount j) (by simp [deposits])
  intro s k t reach inv next d member
  obtain ⟨g, l, a, move, rfl⟩ := next_cases next
  rw [Config.move_trace, deposits_snoc, List.mem_append] at member
  rcases member with earlier | last
  · exact inv d earlier
  · obtain ⟨loop, limit⟩ := inLoop reach k
    have role := consuming_eq reach k
    generalize before : s.locals k = l₀ at move loop limit role
    cases move with
    | @item pos i count output =>
        have filling : 0 < Concurrency.count Local.filling s.locals :=
          count_pos (i := k) (by rw [before]; rfl)
        have slots := (slots_accounting reach).2
        have owner : d.1 = k := by
          obtain ⟨value, -, rfl⟩ : ∃ value, writtenItem (.store (shmBuffer + pos)
              (toChar output)) = some value ∧ (k, value) = d := by
            simpa using last
          rfl
        cases k with
        | inl j =>
            simp only [Local.InLoop, Local.limit, Sum.elim_inl] at loop limit
            exact ⟨by omega, j, owner, by omega⟩
        | inr j => cases role
    | _ => simp [writtenItem] at last

theorem oneDepositor_of_lone (lone : ∀ j k, 0 < c.producerCount j → 0 < c.producerCount k → j = k)
    (h : c.system.Reachable s) : OneDepositor s := by
  intro i j hi hj _ _
  obtain ⟨-, p, owner, some_item⟩ := deposit_owner h _ (List.getElem_mem hi)
  obtain ⟨-, q, owner', some_item'⟩ := deposit_owner h _ (List.getElem_mem hj)
  rw [owner, owner', lone p q some_item some_item']

theorem oneDepositor_of_few (few : c.n = 0 ∨ (c.n = 1 ∧ c.wanted = 0))
    (h : c.system.Reachable s) : OneDepositor s := by
  have at_most_one : (deposits s.trace).length ≤ 1 := by
    have length : (written s.trace).length = (deposits s.trace).length := by
      rw [written_eq_map, List.length_map]
    rcases few with none | ⟨one, nobody⟩
    · by_contra some_deposit
      have first := (deposit_owner h _ (List.getElem_mem (show 0 < (deposits s.trace).length by
        omega))).1
      omega
    · have slots := (slots_accounting h).1
      have got := consumed_le_wanted h
      omega
  intro i j hi hj _ _
  obtain rfl : i = j := by omega
  rfl

theorem deposits_quiet {ι : Type*} (trace : List (ι × Action)) (k : ι) {a : Action}
    (nothing : writtenItem a = none) : deposits (trace ++ [(k, a)]) = deposits trace := by
  simp [nothing]

theorem run_move {g : Shared} {l l' : Local} {a : Action} (run : c.system.Run s t)
    (at_k : t.locals k = l) (move : Move t.shared l g l' a) :
    c.system.Run s (t.move k g l' a) :=
  run.tail (System.next_eq_some.mpr ⟨g, l', a, step_iff.mpr (at_k ▸ move), rfl⟩)

theorem producer_pass (h : c.system.Reachable s) {i count : Nat} {output : Int}
    (at_k : s.locals k = .producer .top i count output) (more : i < count)
    (empty : 0 < s.shared.sems .empty) (binary : 0 < s.shared.sems .binary) :
    ∃ t value, c.system.Run s t ∧ deposits t.trace = deposits s.trace ++ [(k, value)] ∧
      t.shared.sems .empty + 1 = s.shared.sems .empty ∧
      t.shared.sems .full = s.shared.sems .full + 1 ∧
      t.shared.sems .binary = s.shared.sems .binary ∧
      ∀ j, j ≠ k → t.locals j = s.locals j := by
  have nonneg := (sound h).posProducer
  have here {u : State c} {g : Shared} {l : Local} {a : Action} : (u.move k g l a).locals k = l :=
    Function.update_self _ _ _
  have run := run_move .refl at_k (.producerEnter more)
  have run := run_move run here (.producerStart empty binary)
  have run := run_move run here .index
  have run := run_move run here .item
  have run := run_move run here .producerPrintPos
  have run := run_move run here .producerPrintIndex
  have run := run_move run here .producerPrintItem
  have run := run_move run here .producerIncLoad
  have run := run_move run here .producerIncStore
  have run := run_move run here .producerStop
  refine ⟨_, toChar output, run, ?_, ?_, ?_, ?_, fun j other => ?_⟩
  · iterate 6 rw [Config.move_trace, deposits_quiet _ _ (by rfl)]
    simp only [Config.move_trace, deposits_snoc, Config.move_shared, writtenItem_item nonneg,
      Option.map_some, Option.toList_some]
    simp [writtenItem]
  · simp
    omega
  · simp
  · simp
    omega
  · simp [other]

theorem consumer_pass {i count : Nat} (at_k : s.locals k = .consumer .top i count)
    (more : i < count)
    (full : 0 < s.shared.sems .full) (binary : 0 < s.shared.sems .binary) :
    ∃ t, c.system.Run s t ∧ deposits t.trace = deposits s.trace ∧
      t.shared.sems .empty = s.shared.sems .empty + 1 ∧
      t.shared.sems .binary = s.shared.sems .binary ∧
      ∀ j, j ≠ k → t.locals j = s.locals j := by
  have here {u : State c} {g : Shared} {l : Local} {a : Action} : (u.move k g l a).locals k = l :=
    Function.update_self _ _ _
  have run := run_move .refl at_k (.consumerEnter more)
  have run := run_move run here (.consumerStart full binary)
  have run := run_move run here .consumerPrintPos
  have run := run_move run here .consumerPrintIndex
  have run := run_move run here .consumerPrintItem
  have run := run_move run here .consumerIncLoad
  have run := run_move run here .consumerIncStore
  have run := run_move run here .consumerStop
  refine ⟨_, run, ?_, ?_, ?_, fun j other => ?_⟩
  · iterate 8 rw [Config.move_trace, deposits_quiet _ _ (by rfl)]
  · simp
  · simp
    omega
  · simp [other]

theorem exists_two_depositors {j k : Fin c.producers} (ne : j ≠ k) (some_j : 0 < c.producerCount j)
    (some_k : 0 < c.producerCount k) (slot : 0 < c.n) (room : 1 < c.n ∨ 0 < c.wanted) :
    ∃ t v w, c.system.Reachable t ∧ deposits t.trace = [(.inl j, v), (.inl k, w)] := by
  have reach₀ : c.system.Reachable c.system.init := .refl
  obtain ⟨s, v, run, made, empty, full, binary, still⟩ :=
    producer_pass (k := .inl j) reach₀ rfl some_j slot Nat.zero_lt_one
  have reach := reach₀.trans run
  have at_k : s.locals (.inl k) = .producer .top 0 (c.producerCount k) 97 :=
    still (.inl k) (by simpa using ne.symm)
  have empty₀ : c.system.init.shared.sems .empty = c.n := rfl
  have binary₀ : c.system.init.shared.sems .binary = 1 := rfl
  obtain ⟨u, run', made', empty', binary', at_k'⟩ : ∃ u, c.system.Run s u ∧
      deposits u.trace = deposits s.trace ∧ 0 < u.shared.sems .empty ∧
      u.shared.sems .binary = 1 ∧ u.locals (.inl k) = .producer .top 0 (c.producerCount k) 97 := by
    by_cases two : 1 < c.n
    · exact ⟨s, .refl, rfl, by omega, by omega, at_k⟩
    · -- a consumer empties the only slot first
      obtain ⟨q, -, some_q⟩ : ∃ q ∈ univ, 0 < c.consumerCount q := by
        have wanted : 0 < c.wanted := room.resolve_left two
        exact sum_pos_iff.mp wanted
      have at_q : s.locals (.inr q) = .consumer .top 0 (c.consumerCount q) :=
        still (.inr q) (by simp)
      obtain ⟨u, run', made', empty', binary', still'⟩ :=
        consumer_pass at_q some_q (by omega) (by omega)
      exact ⟨u, run', made', by omega, by omega, (still' _ (by simp)).trans at_k⟩
  obtain ⟨t, w, run'', made'', -⟩ :=
    producer_pass (reach.trans run') at_k' some_k empty' (by omega)
  refine ⟨t, v, w, (reach.trans run').trans run'', ?_⟩
  rw [made'', made', made]
  rfl

/-- The deposits spell one alphabet exactly where one process makes them; every run is such exactly
when at most one producer deposits anything, or the buffer never takes a second item. -/
theorem oneAlphabet_iff (c : Setup) :
    (∀ s, c.system.Reachable s → (OneAlphabet s ↔ OneDepositor s)) ∧
    ((∀ s, c.system.Reachable s → OneAlphabet s) ↔
      (∀ j k, 0 < c.producerCount j → 0 < c.producerCount k → j = k) ∨
        c.n = 0 ∨ (c.n = 1 ∧ c.wanted = 0)) := by
  refine ⟨fun s h => ⟨OneAlphabet.oneDepositor h, OneDepositor.oneAlphabet h⟩, fun all => ?_, ?_⟩
  · by_contra mixed
    simp only [not_or, not_forall] at mixed
    obtain ⟨⟨j, k, some_j, some_k, ne⟩, slot, room⟩ := mixed
    obtain ⟨t, v, w, reach, made⟩ :=
      exists_two_depositors ne some_j some_k (by omega) (by omega)
    have one := OneAlphabet.oneDepositor reach (all t reach) 0 1 (by simp [made]) (by simp [made])
      (by decide) (by decide)
    simp only [made, List.getElem_cons_zero, List.getElem_cons_succ, Sum.inl.injEq] at one
    exact ne one
  · rintro (lone | few) s h
    · exact OneDepositor.oneAlphabet h (oneDepositor_of_lone lone h)
    · exact OneDepositor.oneAlphabet h (oneDepositor_of_few few h)

theorem oneAlphabet_fails : ∃ s : State mainSetup, mainSetup.system.Reachable s ∧
    (deposits s.trace).map Prod.snd = [97, 97] ∧ ¬ OneAlphabet s := by
  obtain ⟨s, reach, twice⟩ := System.exists_reachable_of_exec (M := mainSetup.system)
    (List.replicate 10 (.inl (0 : Fin 3)) ++ List.replicate 4 (.inl (1 : Fin 3)))
    (fun s => (deposits s.trace).map Prod.snd = [97, 97]) (by decide)
  have twice := of_decide_eq_true twice
  refine ⟨s, reach, twice, fun alphabet => ?_⟩
  have two : (deposits s.trace).length = 2 := by simpa using congrArg List.length twice
  apply alphabet.distinct 0 1 (by omega) (by omega) (by decide) (by decide) (by decide)
  have first : ((deposits s.trace).map Prod.snd)[0]? = some 97 := by rw [twice]; rfl
  have second : ((deposits s.trace).map Prod.snd)[1]? = some 97 := by rw [twice]; rfl
  simp only [List.getElem?_map, List.getElem?_eq_getElem (show 0 < (deposits s.trace).length by
    omega), List.getElem?_eq_getElem (show 1 < (deposits s.trace).length by omega),
    Option.map_some, Option.some.injEq] at first second
  rw [first, second]

end OsUnix.BoundedBuffer
