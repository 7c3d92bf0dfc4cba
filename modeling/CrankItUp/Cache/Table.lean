import CrankItUp.Cache.Basic
import Mathlib.Data.List.Perm.Basic

/-!
# Tables of buckets

The operations that the cache performs on its table, as facts about lists: writing a bucket,
erasing the first triple with a key (`eraseKey`), and distributing triples over a new table
(`foldlM_pushBack`).
-/

namespace CrankItUp

/-! ### Writing a bucket -/

section Buckets

variable {α : Type*}

theorem getD_set_self {d : List (List α)} {i : ℕ} (hi : i < d.length) (b : List α) :
    (d.set i b).getD i [] = b := by
  simp [List.getD_eq_getElem?_getD, hi]

theorem getD_set_ne {d : List (List α)} {i j : ℕ} (h : j ≠ i) (b : List α) :
    (d.set i b).getD j [] = d.getD j [] := by
  simp [List.getD_eq_getElem?_getD, List.getElem?_set_ne (Ne.symm h)]

theorem mem_flatten_iff {d : List (List α)} {x : α} : x ∈ d.flatten ↔ ∃ i, x ∈ d.getD i [] := by
  simp only [List.mem_flatten, List.getD_eq_getElem?_getD]
  constructor
  · rintro ⟨b, hb, hx⟩
    obtain ⟨i, hi⟩ := List.mem_iff_getElem?.1 hb
    exact ⟨i, by simpa [hi] using hx⟩
  · rintro ⟨i, hx⟩
    cases hb : d[i]? with
    | none => simp [hb] at hx
    | some b => exact ⟨b, List.mem_of_getElem? hb, by simpa [hb] using hx⟩

theorem exists_flatten_split {d : List (List α)} {i : ℕ} (hi : i < d.length) :
    ∃ pre post, d.flatten = pre ++ (d.getD i [] ++ post) ∧
      ∀ b, (d.set i b).flatten = pre ++ (b ++ post) := by
  induction d generalizing i with
  | nil => simp at hi
  | cons c d ih =>
    cases i with
    | zero => exact ⟨[], d.flatten, by simp, fun b => by simp⟩
    | succ i =>
      obtain ⟨pre, post, h, h'⟩ := ih (i := i) (by simpa using hi)
      exact ⟨c ++ pre, post, by simpa using h, fun b => by simpa using h' b⟩

theorem flatten_replicate_nil (n : ℕ) : (List.replicate n ([] : List α)).flatten = [] := by
  induction n with
  | zero => rfl
  | succ n ih => simp

end Buckets

/-! ### Erasing a key -/

variable {key : KeyType} {b b' : Bucket} {n : UInt32}

/-- The first triple of a bucket that has the key. -/
def findKey (key : KeyType) (b : Bucket) : Option Triple := b.find? fun it => it.key = key

theorem eraseKey_eq_none : eraseKey key b = none ↔ findKey key b = none := by
  induction b with
  | nil => simp [eraseKey, findKey]
  | cons it b ih =>
    by_cases h : it.key = key
    · simp [eraseKey, findKey, h]
    · simpa [eraseKey, findKey, h] using ih

/-- Erasing a key removes the first triple `t` that has it, and reads the size of the triple
after it, if there is one. -/
theorem eraseKey_eq_some (h : eraseKey key b = some (n, b')) :
    ∃ pre t post, b = pre ++ t :: post ∧ (∀ x ∈ pre, x.key ≠ key) ∧ t.key = key ∧
      b' = pre ++ post ∧ n = (post.head?.getD t).size := by
  induction b generalizing b' with
  | nil => cases h
  | cons it b ih =>
    simp only [eraseKey] at h
    split at h
    · rename_i hk
      cases h
      exact ⟨[], it, b, rfl, by simp, hk, rfl, rfl⟩
    · rename_i hk
      obtain ⟨⟨n', b''⟩, hb, he⟩ := Option.map_eq_some_iff.1 h
      cases he
      obtain ⟨pre, t, post, rfl, hpre, ht, rfl, hn⟩ := ih hb
      refine ⟨it :: pre, t, post, rfl, ?_, ht, rfl, hn⟩
      intro x hx
      rcases List.mem_cons.1 hx with rfl | hx
      exacts [hk, hpre x hx]

theorem findKey_split {pre post : Bucket} {t : Triple} (hpre : ∀ x ∈ pre, x.key ≠ key)
    (ht : t.key = key) : findKey key (pre ++ t :: post) = some t := by
  have hnone : pre.find? (fun it => decide (it.key = key)) = none := by
    simpa [List.find?_eq_none] using hpre
  simp [findKey, List.find?_append, hnone, ht]

theorem findKey_key {t : Triple} (h : findKey key b = some t) : t.key = key := by
  simpa using List.find?_some h

theorem findKey_eq_head? : findKey key b = (b.filter fun t => t.key = key).head? := by
  simp [findKey, List.head?_filter]

/-! ### Distributing triples over a table -/

theorem pushBack_ok {dict d : List Bucket} {i : ℕ} {t : Triple} (h : pushBack dict i t = .ok d) :
    i < dict.length ∧ d = dict.set i (dict.getD i [] ++ [t]) := by
  unfold pushBack at h
  split at h
  · rename_i hi
    exact ⟨hi, by cases h; rfl⟩
  · cases h

theorem flatten_pushBack {dict : List Bucket} {i : ℕ} (hi : i < dict.length) (t : Triple) :
    (dict.set i (dict.getD i [] ++ [t])).flatten.Perm (t :: dict.flatten) := by
  obtain ⟨pre, post, h, h'⟩ := exists_flatten_split hi
  rw [h', h]
  simp only [List.append_assoc, List.singleton_append]
  rw [← List.append_assoc, ← List.append_assoc]
  exact List.perm_middle

/-- Pushing the triples of a list into the buckets that `f` gives them, one after another,
appends to each bucket its share of the list. -/
theorem foldlM_pushBack {f : Triple → ℕ} {l : List Triple} {dict d : List Bucket}
    (h : l.foldlM (fun dict t => pushBack dict (f t) t) dict = .ok d) :
    d.length = dict.length ∧ d.flatten.Perm (l ++ dict.flatten) ∧
      (∀ i, d.getD i [] = dict.getD i [] ++ l.filter fun t => f t = i) ∧
      ∀ t ∈ l, f t < dict.length := by
  induction l generalizing dict with
  | nil => cases h; simp
  | cons t l ih =>
    rw [List.foldlM_cons] at h
    cases hp : pushBack dict (f t) t with
    | error e => rw [hp] at h; cases h
    | ok d' =>
      rw [hp] at h
      obtain ⟨hi, rfl⟩ := pushBack_ok hp
      obtain ⟨hlen, hperm, hget, hlt⟩ := ih h
      rw [List.length_set] at hlen hlt
      refine ⟨hlen, ?_, fun i => ?_, ?_⟩
      · exact (hperm.trans ((flatten_pushBack hi t).append_left l)).trans List.perm_middle
      · rw [hget]
        by_cases hi' : i = f t
        · subst hi'
          rw [getD_set_self hi, List.filter_cons_of_pos (by simp), List.append_assoc]
          rfl
        · rw [getD_set_ne hi', List.filter_cons_of_neg (by simpa using Ne.symm hi')]
      · intro x hx
        rcases List.mem_cons.1 hx with rfl | hx
        exacts [hi, hlt x hx]

theorem foldlM_pushBack_isOk {f : Triple → ℕ} {l : List Triple} {dict : List Bucket}
    (h : ∀ t ∈ l, f t < dict.length) :
    ∃ d, l.foldlM (fun dict t => pushBack dict (f t) t) dict = .ok d := by
  induction l generalizing dict with
  | nil => exact ⟨dict, rfl⟩
  | cons t l ih =>
    have hp : pushBack dict (f t) t = .ok (dict.set (f t) (dict.getD (f t) [] ++ [t])) := by
      simp [pushBack, h t (by simp)]
    rw [List.foldlM_cons, hp]
    exact ih fun x hx => by simpa using h x (List.mem_cons_of_mem _ hx)

theorem foldlM_flatten {m : Type → Type} [Monad m] [LawfulMonad m] {α : Type} {β : Type}
    (f : β → α → m β) (ls : List (List α)) (init : β) :
    ls.foldlM (fun acc l => l.foldlM f acc) init = ls.flatten.foldlM f init := by
  induction ls generalizing init with
  | nil => rfl
  | cons l ls ih => simp [List.foldlM_append, ih]

end CrankItUp
