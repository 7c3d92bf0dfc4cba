import CrankItUp.Machine.Basic
import Mathlib.Data.List.Induction
import Mathlib.Data.List.Nodup

/-!
# Recency lists

A list of distinct elements in the order in which they have last been touched, the latest one
first.  Touching an element moves it to the front, or puts it there; evicting takes the last one
away, and answers a default element if there is none.

## Main definitions

* `RecencyList.machine d` : the machine of the two operations; `d` is the default answer.
* `RecencyList.lastTouch a H` : when `a` has last been touched in the history `H`; 0 if it has
  not been touched since it was last evicted.
* `RecencyList.Ordered H l` : `l` has the elements touched since their last eviction, in the
  order of their last touch.  Every run of the machine keeps this.
* `RecencyList.results_evict` : evicting again and again answers the elements of the list, each
  one once, and the one touched last at the end; the default answer follows.
-/

namespace CrankItUp

namespace RecencyList

/-- The calls of a recency list. -/
inductive Op (α : Type*) where
  | touch (a : α)
  | evict
  deriving DecidableEq

variable {α F : Type*} [DecidableEq α]

/-- Move the element to the front, or put it there. -/
def touch (a : α) (l : List α) : List α := a :: l.erase a

/-- Take the last element away; `d` is the answer of an empty list. -/
def evict (d : α) (l : List α) : α × List α := (l.getLast?.getD d, l.dropLast)

/-- A recency list as a machine; only evictions have an answer. -/
def machine (d : α) : Machine (List α) (Op α) (Option α) F where
  step l
    | .touch a => .ok (none, touch a l)
    | .evict => .ok (some (evict d l).1, (evict d l).2)

/-- The number of calls up to the last touch of the element; 0 if it has not been touched since
it was last evicted. -/
def lastTouch (a : α) : List (Op α × Option α) → ℕ
  | [] => 0
  | (.touch b, _) :: H => if b = a then H.length + 1 else lastTouch a H
  | (.evict, r) :: H => if r = some a then 0 else lastTouch a H

/-- The list has the elements touched since their last eviction, the latest first. -/
structure Ordered (H : List (Op α × Option α)) (l : List α) : Prop where
  mem_iff : ∀ a, a ∈ l ↔ 0 < lastTouch a H
  sorted : l.Pairwise fun a b => lastTouch b H < lastTouch a H

variable {d a b : α} {l : List α} {H : List (Op α × Option α)} {r : Option α}

omit [DecidableEq α] in
theorem evict_append_singleton (d a : α) (l : List α) : evict d (l ++ [a]) = (a, l) := by
  simp [evict]

theorem lastTouch_le (a : α) (H : List (Op α × Option α)) : lastTouch a H ≤ H.length := by
  induction H with
  | nil => exact Nat.le_refl _
  | cons c H ih =>
    obtain ⟨o, r⟩ := c
    cases o <;> simp only [lastTouch, List.length_cons] <;> split <;> omega

theorem lastTouch_touch_self : lastTouch a ((.touch a, r) :: H) = H.length + 1 := by
  simp [lastTouch]

theorem lastTouch_touch_ne (h : b ≠ a) : lastTouch b ((.touch a, r) :: H) = lastTouch b H := by
  simp [lastTouch, h.symm]

theorem lastTouch_evict_self : lastTouch a ((.evict, some a) :: H) = 0 := by simp [lastTouch]

theorem lastTouch_evict_ne (h : b ≠ a) :
    lastTouch b ((.evict, some a) :: H) = lastTouch b H := by
  simp [lastTouch, h.symm]

namespace Ordered

theorem nil : Ordered ([] : List (Op α × Option α)) [] :=
  ⟨fun a => by simp [lastTouch], List.Pairwise.nil⟩

theorem nodup (h : Ordered H l) : l.Nodup :=
  h.sorted.imp fun {a b} hlt => by
    rintro rfl
    exact Nat.lt_irrefl _ hlt

theorem touch (h : Ordered H l) (a : α) : Ordered ((.touch a, r) :: H) (touch a l) := by
  have hne : ∀ b ∈ l.erase a, b ≠ a := by
    rintro b hb rfl
    exact h.nodup.not_mem_erase hb
  refine ⟨fun b => ?_, ?_⟩
  · rw [RecencyList.touch, List.mem_cons]
    by_cases hb : b = a
    · simp [hb, lastTouch_touch_self]
    · rw [List.mem_erase_of_ne hb, lastTouch_touch_ne hb, h.mem_iff]
      simp [hb]
  · rw [RecencyList.touch, List.pairwise_cons]
    constructor
    · intro b hb
      rw [lastTouch_touch_self, lastTouch_touch_ne (hne b hb)]
      exact Nat.lt_succ_of_le (lastTouch_le b H)
    · refine (h.sorted.sublist List.erase_sublist).imp_of_mem fun {b c} hb hc hlt => ?_
      rwa [lastTouch_touch_ne (hne b hb), lastTouch_touch_ne (hne c hc)]

/-- The element that is evicted has been touched before all others; it is the default one only
if there is none. -/
theorem evict_oldest (h : Ordered H l) (d : α) :
    (l = [] ∧ (evict d l).1 = d) ∨ ((evict d l).1 ∈ l ∧
      ∀ b ∈ l, b ≠ (evict d l).1 → lastTouch (evict d l).1 H < lastTouch b H) := by
  cases l using List.reverseRecOn with
  | nil => exact .inl ⟨rfl, rfl⟩
  | append_singleton l x _ =>
    rw [evict_append_singleton]
    refine .inr ⟨by simp, fun b hb hne => ?_⟩
    have hsorted := h.sorted
    rw [List.pairwise_append] at hsorted
    have hbl : b ∈ l := by simpa [hne] using hb
    exact hsorted.2.2 b hbl x (by simp)

theorem evict (h : Ordered H l) (d : α) :
    Ordered ((.evict, some (evict d l).1) :: H) (evict d l).2 := by
  cases l using List.reverseRecOn with
  | nil =>
    -- nothing is there to be forgotten
    refine ⟨fun b => ?_, List.Pairwise.nil⟩
    have hb := h.mem_iff b
    simp only [RecencyList.evict, List.dropLast_nil, List.not_mem_nil, false_iff] at hb ⊢
    simp only [lastTouch]
    split <;> omega
  | append_singleton l x _ =>
    have hnodup := h.nodup
    rw [List.nodup_append] at hnodup
    have hne : ∀ b ∈ l, b ≠ x := fun b hb => hnodup.2.2 b hb x (by simp)
    rw [evict_append_singleton]
    refine ⟨fun b => ?_, ?_⟩
    · by_cases hb : b = x
      · subst hb
        rw [lastTouch_evict_self]
        simpa using fun hmem => hne b hmem rfl
      · rw [lastTouch_evict_ne hb, ← h.mem_iff]
        simp [hb]
    · have hsorted := h.sorted.sublist (List.sublist_append_left l [x])
      refine hsorted.imp_of_mem fun {b c} hb hc hlt => ?_
      rwa [lastTouch_evict_ne (hne b hb), lastTouch_evict_ne (hne c hc)]

end Ordered

theorem ordered_of_reaches {ok : List α → Op α → Prop}
    (h : (machine d : Machine _ _ _ F).Reaches ok [] H l) : Ordered H l := by
  refine h.invariant (I := Ordered) .nil fun H l o r l' hl _ hst => ?_
  cases o with
  | touch a => cases hst; exact hl.touch a
  | evict => cases hst; exact hl.evict d

/-- Evicting as often as there are elements answers them all, the least recent one first. -/
theorem results_evict (d : α) (l : List α) (os : List (Op α)) :
    (machine d : Machine _ _ _ F).results l (List.replicate l.length .evict ++ os) =
      (l.reverse.map fun a => .ok (some a)) ++ (machine d).results [] os := by
  induction l using List.reverseRecOn with
  | nil => rfl
  | append_singleton l x ih =>
    have hstep : (machine d : Machine _ _ _ F).step (l ++ [x]) .evict = .ok (some x, l) := by
      show Except.ok (some (evict d (l ++ [x])).1, (evict d (l ++ [x])).2) = _
      rw [evict_append_singleton]
    rw [List.length_append, List.length_singleton, List.replicate_succ, List.cons_append,
      List.reverse_append]
    simp only [Machine.results, hstep, ih]
    rfl

theorem results_evict_nil (d : α) (n : ℕ) :
    (machine d : Machine _ _ _ F).results [] (List.replicate n .evict) =
      List.replicate n (.ok (some d)) := by
  induction n with
  | zero => rfl
  | succ n ih =>
    rw [List.replicate_succ, List.replicate_succ, ← ih]
    rfl

end RecencyList

end CrankItUp
