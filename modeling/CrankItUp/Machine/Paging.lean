import CrankItUp.Machine.RecencyList

/-!
# Recency lists of bounded length

A recency list with room for some number of elements.  An element that is looked up is touched if
it is there; an element that is admitted is touched, after the last element has made room if the
list is full.

## Main definitions

* `RecencyList.hit`, `RecencyList.load` : the two operations.
* `RecencyList.Within c d s l` : the list `s`, with room for `c` elements, is a part of the list
  `l`, with room for `d`, in the same order, and has no more room left than `l`.
* `RecencyList.Within.hit`, `RecencyList.Within.load` : both operations keep this, so that the
  list with more room has all elements that the other one has.
-/

namespace CrankItUp

namespace RecencyList

variable {α : Type*} [DecidableEq α]

/-- Look an element up. -/
def hit (a : α) (l : List α) : List α := if a ∈ l then touch a l else l

/-- Admit an element to a list with room for `c` elements.  A full list loses its last element,
even if the element is there already. -/
def load (c : ℕ) (a : α) (l : List α) : List α :=
  touch a (if l.length < c then l else l.dropLast)

/-- The list `s` is a part of `l`, and has no more room left. -/
structure Within (c d : ℕ) (s l : List α) : Prop where
  sublist : s.Sublist l
  nodup : l.Nodup
  length_le : s.length ≤ c
  length_le' : l.length ≤ d
  room : l.length + c ≤ s.length + d

variable {a : α} {c d : ℕ} {s l : List α}

theorem mem_touch {b : α} : b ∈ touch a l ↔ b = a ∨ b ∈ l := by
  by_cases h : b = a
  · simp [touch, h]
  · simp [touch, h, List.mem_erase_of_ne h]

theorem nodup_touch (h : l.Nodup) : (touch a l).Nodup :=
  List.nodup_cons.2 ⟨h.not_mem_erase, h.erase a⟩

theorem length_touch_of_mem (h : a ∈ l) : (touch a l).length = l.length := by
  have := List.length_pos_of_mem h
  rw [touch, List.length_cons, List.length_erase_of_mem h]
  omega

theorem length_touch_of_notMem (h : a ∉ l) : (touch a l).length = l.length + 1 := by
  rw [touch, List.length_cons, List.erase_of_not_mem h]

theorem touch_touch (a : α) (l : List α) : touch a (touch a l) = touch a l := by
  simp [touch]

theorem sublist_touch (h : s.Sublist l) : (touch a s).Sublist (touch a l) :=
  (h.erase a).cons_cons a

omit [DecidableEq α] in
theorem sublist_dropLast (h : s.Sublist l) : s.dropLast.Sublist l.dropLast := by
  have := (h.reverse.tail).reverse
  simpa only [List.tail_reverse, List.reverse_reverse] using this

namespace Within

omit [DecidableEq α] in
theorem mem (h : Within c d s l) (ha : a ∈ s) : a ∈ l := h.sublist.subset ha

omit [DecidableEq α] in
theorem room_le (h : Within c d s l) : c ≤ d := by
  have := h.sublist.length_le
  have := h.room
  omega

omit [DecidableEq α] in
theorem nil (h : c ≤ d) : Within c d ([] : List α) [] where
  sublist := List.nil_sublist _
  nodup := List.nodup_nil
  length_le := Nat.zero_le c
  length_le' := Nat.zero_le d
  room := by simpa using h

theorem hit (h : Within c d s l) (a : α) : Within c d (hit a s) (hit a l) := by
  unfold RecencyList.hit
  by_cases hs : a ∈ s
  · have hl := h.mem hs
    rw [if_pos hs, if_pos hl]
    refine ⟨sublist_touch h.sublist, nodup_touch h.nodup, ?_, ?_, ?_⟩ <;>
      simp only [length_touch_of_mem hs, length_touch_of_mem hl]
    exacts [h.length_le, h.length_le', h.room]
  · rw [if_neg hs]
    by_cases hl : a ∈ l
    · -- only the larger list has the element
      rw [if_pos hl]
      have hsub : s.Sublist (touch a l) := by
        have := (h.sublist.erase a).cons a
        rwa [List.erase_of_not_mem hs] at this
      refine ⟨hsub, nodup_touch h.nodup, h.length_le, ?_, ?_⟩ <;> rw [length_touch_of_mem hl]
      exacts [h.length_le', h.room]
    · rw [if_neg hl]
      exact h

theorem touch (h : s.Sublist l) (hl : l.Nodup) (hc : s.length + 1 ≤ c) (hd : l.length + 1 ≤ d)
    (hroom : l.length + c ≤ s.length + d) (a : α) :
    Within c d (RecencyList.touch a s) (RecencyList.touch a l) := by
  refine ⟨sublist_touch h, nodup_touch hl, ?_, ?_, ?_⟩
  all_goals
    by_cases hs : a ∈ s
    · have hal := h.subset hs
      simp only [length_touch_of_mem hs, length_touch_of_mem hal]
      omega
    · by_cases hal : a ∈ l
      · simp only [length_touch_of_notMem hs, length_touch_of_mem hal]
        omega
      · simp only [length_touch_of_notMem hs, length_touch_of_notMem hal]
        omega

/-- **Admitting an element to both lists.** -/
theorem load (h : Within c d s l) (hc : 0 < c) (a : α) :
    Within c d (load c a s) (load d a l) := by
  have hroom := h.room
  have hlen := h.length_le
  have hlen' := h.length_le'
  have hle := h.sublist.length_le
  unfold RecencyList.load
  by_cases hs : s.length < c
  · -- a list with room is within a list with room
    have hl : l.length < d := by omega
    rw [if_pos hs, if_pos hl]
    exact .touch h.sublist h.nodup hs hl hroom a
  · rw [if_neg hs]
    by_cases hl : l.length < d
    · rw [if_pos hl]
      refine .touch ((List.dropLast_sublist s).trans h.sublist) h.nodup ?_ hl ?_ a <;>
        rw [List.length_dropLast] <;> omega
    · rw [if_neg hl]
      refine .touch (sublist_dropLast h.sublist) (h.nodup.sublist (List.dropLast_sublist l))
        ?_ ?_ ?_ a
      all_goals
        simp only [List.length_dropLast]
        omega

end Within

end RecencyList

end CrankItUp
