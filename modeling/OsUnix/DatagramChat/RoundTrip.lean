import OsUnix.DatagramChat.Model
import Mathlib.Data.List.Perm.Basic
import Mathlib.Data.List.TakeWhile

/-!
# Words over datagrams

A word needs room for its terminator twice, in the client's array and in the server's. What is
printed never has a byte of an earlier datagram in it.
-/

namespace OsUnix.DatagramChat
open Kernel

variable {ι : Type*} {s t : Chat ι} {event : Event ι} {events : List (Event ι)}
  {word text : List UInt8} {message : ι → Memory} {buffer : Memory} {answers : List Unit}

structure Exact (typed : List (List UInt8)) (s : Chat ι) : Prop where
  stores : s.stores.Within 0 sizeBuffer
  sent : ∀ d ∈ s.flight, d.bytes = d.word
  printed : s.printed = s.received
  whole : (s.received ++ s.flight.map Datagram.word).Perm typed

def Fits (word : List UInt8) : Prop := word.length < sizeBuffer ∧ 0 ∉ word

theorem sent_bytes (m : Memory) (word : List UInt8) :
    cstring (Memory.slice (m.store (.place 0 (word ++ [0]))) 0 (word.length + 1)) =
      cstring word := by
  have length : word.length + 1 = (word ++ [0]).length := by simp
  rw [length, Memory.slice_place, cstring_append]

theorem printed_bytes (m : Memory) (data : List UInt8) :
    cstring (Memory.slice (m.store (Accesses.place 0 data ++ [((data.length : Int), 0)])) 0
      (data.length + 1)) = cstring data := by
  rw [Memory.store_append, Memory.slice_add, Memory.slice_store (Accesses.within_singleton.mpr
    ⟨Int.le_refl _, Int.lt_succ _⟩) (.inl (by omega)), Memory.slice_place, Int.zero_add,
    Memory.slice, Memory.slice]
  have zero : Memory.store (m.store (.place 0 data)) [((data.length : Int), 0)] data.length = 0 :=
    Function.update_self ..
  rw [zero, cstring_append]

structure Tracks (typed : List (List UInt8)) (s : Chat ι) : Prop where
  sent_text : ∀ d ∈ s.flight, 0 ∉ d.bytes
  printed_text : ∀ text ∈ s.printed, 0 ∉ text
  whole : (s.received ++ s.flight.map Datagram.word).Perm typed
  short : s.stores.Within 0 sizeBuffer → ∀ word ∈ typed, word.length < sizeBuffer
  exact : (∀ word ∈ typed, Fits word) → Exact typed s

variable {typed : List (List UInt8)} {k : Nat}

theorem Tracks.start (message : ι → Memory) (buffer : Memory) :
    Tracks [] (Chat.start message buffer) where
  sent_text := List.forall_mem_nil _
  printed_text := List.forall_mem_nil _
  whole := .refl _
  short _ := List.forall_mem_nil _
  exact _ := ⟨List.forall_mem_nil _, List.forall_mem_nil _, rfl, .refl _⟩

theorem Tracks.client [DecidableEq ι] (tracks : Tracks typed s) (i : ι) (word : List UInt8) :
    Tracks (typed ++ [word]) (s.client i word) := by
  have whole : ((s.client i word).received ++ (s.client i word).flight.map Datagram.word).Perm
      (typed ++ [word]) := by
    have before := tracks.whole.append_right [word]
    simpa [Chat.client] using before
  refine ⟨?_, tracks.printed_text, whole, ?_, ?_⟩
  · intro d mem
    rcases List.mem_append.mp mem with before | new
    · exact tracks.sent_text d before
    · rw [List.mem_singleton.mp new, sent_bytes]
      exact zero_not_mem_cstring
  · intro within w mem
    obtain ⟨before, new⟩ := Accesses.within_append.mp within
    rcases List.mem_append.mp mem with old | last
    · exact tracks.short before w old
    · have room := (new.of_place (by simp)).2
      rw [List.mem_singleton.mp last]
      simp at room
      omega
  · intro fits
    obtain ⟨old, last⟩ := List.forall_mem_append.mp fits
    obtain ⟨short, free⟩ := last word (List.mem_singleton_self _)
    have exact := tracks.exact old
    refine ⟨Accesses.within_append.mpr ⟨exact.stores, ?_⟩, ?_, exact.printed, whole⟩
    · apply Accesses.place_within.mono (Int.le_refl 0)
      simp
      omega
    · intro d mem
      rcases List.mem_append.mp mem with before | new
      · exact exact.sent d before
      · rw [List.mem_singleton.mp new]
        exact (sent_bytes _ _).trans (cstring_eq_self free)

theorem Tracks.server (tracks : Tracks typed s) (done : s.server k = some t) : Tracks typed t := by
  unfold Chat.server at done
  split at done
  · cases done
  · rename_i d found
    obtain ⟨below, at_k⟩ := List.getElem?_eq_some_iff.mp found
    have taken : (d :: s.flight.eraseIdx k).Perm s.flight :=
      at_k ▸ List.getElem_cons_eraseIdx_perm below
    have kept : ∀ d' ∈ s.flight.eraseIdx k, d' ∈ s.flight := fun d' mem =>
      taken.subset (List.mem_cons_of_mem d mem)
    have whole :
        (s.received ++ [d.word] ++ (s.flight.eraseIdx k).map Datagram.word).Perm typed := by
      rw [List.append_assoc, List.singleton_append]
      exact ((taken.map Datagram.word).append_left s.received).trans tracks.whole
    cases done
    refine ⟨fun d' mem => tracks.sent_text d' (kept d' mem), ?_, whole, ?_, ?_⟩
    · intro text mem
      rcases List.mem_append.mp mem with before | new
      · exact tracks.printed_text text before
      · rw [List.mem_singleton.mp new]
        exact zero_not_mem_cstring
    · exact fun within => tracks.short (Accesses.within_append.mp within).1
    · intro fits
      have exact := tracks.exact fits
      have typed_word : d.word ∈ typed :=
        whole.subset (List.mem_append_left _ (List.mem_append_right _ (List.mem_singleton_self _)))
      obtain ⟨short, free⟩ := fits d.word typed_word
      have bytes : d.bytes.take sizeBuffer = d.word := by
        rw [exact.sent d (List.mem_of_getElem? found), List.take_of_length_le short.le]
      rw [bytes]
      refine ⟨Accesses.within_append.mpr ⟨exact.stores, Accesses.within_append.mpr ⟨?_, ?_⟩⟩,
        fun d' mem => exact.sent d' (kept d' mem), ?_, whole⟩
      · exact Accesses.place_within.mono (Int.le_refl 0) (by omega)
      · exact Accesses.within_singleton.mpr (by omega)
      · rw [printed_bytes, cstring_eq_self free, exact.printed]

theorem Tracks.fits (tracks : Tracks typed s) (exact : Exact typed s) :
    ∀ word ∈ typed, Fits word := by
  intro word mem
  refine ⟨tracks.short exact.stores word mem, ?_⟩
  rcases List.mem_append.mp (tracks.whole.symm.subset mem) with received | flying
  · exact tracks.printed_text word (exact.printed ▸ received)
  · obtain ⟨d, sent, rfl⟩ := List.mem_map.mp flying
    exact exact.sent d sent ▸ tracks.sent_text d sent

variable [DecidableEq ι]

theorem Tracks.step (tracks : Tracks typed s) (done : s.step event = some t) :
    Tracks (typed ++ event.word.toList) t := by
  cases event with
  | type i word =>
      cases done
      exact tracks.client i word.val
  | receive k =>
      rw [Event.word, Option.toList_none, List.append_nil]
      exact tracks.server done

theorem Tracks.exec (tracks : Tracks typed s)
    (run : (chat message buffer).exec s events = some (t, answers)) :
    Tracks (typed ++ events.filterMap Event.word) t := by
  induction events generalizing s typed answers with
  | nil =>
      obtain ⟨rfl, -⟩ : s = t ∧ [] = answers := by simpa [Component.exec] using run
      simpa using tracks
  | cons event events ih =>
      obtain ⟨u, r, _, first, rest, -⟩ := Component.exec_eq_some.mp run
      have next := ih (tracks.step (Component.silent_step.mp first)) rest
      cases word : event.word with
      | none => simpa [List.filterMap_cons, word] using next
      | some w => simpa [List.filterMap_cons, word] using next

/-- A run is right exactly when every word typed in it has less than 100 bytes and no zero. -/
theorem words_arrive_iff (message : ι → Memory) (buffer : Memory)
    (run : (chat message buffer).exec (.start message buffer) events = some (s, answers)) :
    Exact (events.filterMap Event.word) s ↔ ∀ word ∈ events.filterMap Event.word, Fits word := by
  have tracks := (Tracks.start message buffer).exec run
  exact ⟨tracks.fits, tracks.exact⟩

def crossed : List (Event Bool) :=
  [.type true ⟨[97, 98], by simp [isSpace]⟩, .type false ⟨[99], by simp [isSpace]⟩,
    .receive 1, .receive 0]

theorem words_arrive_crossed : ∃ s answers,
    (chat (0 : Bool → Memory) 0).exec (.start 0 0) crossed = some (s, answers) ∧
    (Exact (crossed.filterMap Event.word) s ↔
      ∀ word ∈ crossed.filterMap Event.word, Fits word) := by
  obtain ⟨s, answers, run⟩ : ∃ s answers,
      (chat (0 : Bool → Memory) 0).exec (.start 0 0) crossed = some (s, answers) := ⟨_, _, rfl⟩
  exact ⟨s, answers, run, words_arrive_iff 0 0 run⟩

def overlong : List (Event Unit) :=
  [.type () ⟨List.replicate sizeBuffer 97, List.replicate_succ ▸ List.cons_ne_nil _ _,
    fun _ mem => List.eq_of_mem_replicate mem ▸ rfl⟩, .receive 0]

theorem words_arrive_fails : ∃ s answers,
    (chat (0 : Unit → Memory) 0).exec (.start 0 0) overlong = some (s, answers) ∧
    ¬ Exact (overlong.filterMap Event.word) s := by
  obtain ⟨s, answers, run⟩ : ∃ s answers,
      (chat (0 : Unit → Memory) 0).exec (.start 0 0) overlong = some (s, answers) := ⟨_, _, rfl⟩
  refine ⟨s, answers, run, fun exact => ?_⟩
  have tracks := (Tracks.start 0 0).exec run
  have short := (tracks.fits exact _ (List.mem_singleton_self _)).1
  rw [List.length_replicate] at short
  exact Nat.lt_irrefl _ short

end OsUnix.DatagramChat
