import CrankItUp.Cache.Guard
import CrankItUp.Evictor.Lru
import Mathlib.Algebra.Order.BigOperators.Group.List
import Mathlib.Algebra.Order.Group.Nat
import Mathlib.Algebra.Ring.Nat

/-!
# Byte accounting

`set` adds a size to the counter `spaceUsed` and `del` subtracts one, in 32-bit arithmetic.
This file compares the counter with the exact sum of the sizes in the table (`Impl.total`).

* `Impl.spaceUsed_eq_total` : the counter is the sum of the sizes, modulo `2 ^ 32`, in every run
  in which each deletion subtracts the size of the triple that it removes.  `del` reads the size
  of the triple *behind* the removed one, so this asks that the two sizes are equal, or that the
  removed triple is the last of its bucket (`Impl.Frees`).
* `Impl.total_le_maxmem` : the sum of the sizes stays within `maxmem` if no deletion subtracts
  more than it frees and no sum that passes the fit test has wrapped.
-/

namespace CrankItUp

/-- The triple behind the first one with the key. -/
def behind (key : KeyType) : Bucket → Option Triple
  | [] => none
  | it :: rest => if it.key = key then rest.head? else behind key rest

theorem behind_split {key : KeyType} {pre post : Bucket} {t : Triple}
    (hpre : ∀ x ∈ pre, x.key ≠ key) (ht : t.key = key) :
    behind key (pre ++ t :: post) = post.head? := by
  induction pre with
  | nil => simp [behind, ht]
  | cons x pre ih =>
    rw [List.cons_append, behind, if_neg (hpre x (by simp))]
    exact ih fun y hy => hpre y (List.mem_cons_of_mem _ hy)

namespace Impl

variable {ε : Type} (s : Impl ε)

/-- The exact sum of the sizes of all triples. -/
def total : ℕ := (s.triples.map fun t => t.size.toNat).sum

/-- The size that deleting the key would read from the next triple of the bucket, if there is
one, is related by `R` to the size of the triple that it would remove. -/
def Frees (R : UInt32 → UInt32 → Prop) (key : KeyType) : Prop :=
  ∀ t ∈ s.lookup key, ∀ t' ∈ behind key (s.bucket (s.place key)), R t'.size t.size

instance (R : UInt32 → UInt32 → Prop) [∀ m n, Decidable (R m n)] (key : KeyType) :
    Decidable (s.Frees R key) :=
  inferInstanceAs (Decidable (∀ t ∈ s.lookup key,
    ∀ t' ∈ behind key (s.bucket (s.place key)), R t'.size t.size))

/-- Deleting the key subtracts the size of the triple that it removes. -/
abbrev FreesExactly (key : KeyType) : Prop := s.Frees (· = ·) key

/-- Deleting the key subtracts at most the size of the triple that it removes. -/
abbrev FreesAtMost (key : KeyType) : Prop := s.Frees (· ≤ ·) key

/-- The sum of the fit test does not wrap if the test passes. -/
def FitsUnwrapped (size : UInt32) : Prop :=
  s.Fits size → s.spaceUsed.toNat + size.toNat < 2 ^ 32

instance (size : UInt32) : Decidable (s.FitsUnwrapped size) :=
  inferInstanceAs (Decidable (_ → _))

variable {s} {s' g : Impl ε} {key : KeyType} {val : ValType} {size : UInt32} {t : Triple}

/-! ### The sum of the sizes -/

theorem total_eq_of_perm (h : s.triples.Perm s'.triples) : s.total = s'.total :=
  (h.map _).sum_nat

theorem Deletes.total_eq (h : s.Deletes key t s') : s.total = t.size.toNat + s'.total :=
  (h.triples_perm.map _).sum_nat

theorem push_total (h : 0 < s.dict.length) :
    (s.push key val size).total = size.toNat + s.total :=
  ((push_triples_perm h).map _).sum_nat

theorem reset_total : s.reset.total = 0 := by
  rw [total, List.sum_eq_zero]
  intro n hn
  obtain ⟨t, ht, rfl⟩ := List.mem_map.1 hn
  rw [mem_reset_triples ht]
  rfl

theorem new_total (maxmem : UInt32) (f : FloatVal) (e : Option ε)
    (h : Option (KeyType → UInt64)) : (new maxmem f e h).total = 0 := by
  rw [total, new_triples]; rfl

/-- The counter drops by the size of the next triple of the bucket, or by the right size. -/
theorem Deletes.spaceUsed_eq (h : s.Deletes key t s') :
    s'.spaceUsed =
      s.spaceUsed - ((behind key (s.bucket (s.place key))).getD t).size := by
  obtain ⟨pre, post, hb, hpre, ht, -, rfl⟩ := h
  rw [hb, behind_split hpre ht]

theorem Deletes.exists_spaceUsed_eq {R : UInt32 → UInt32 → Prop} (h : s.Deletes key t s')
    (hR : s.Frees R key) (hrefl : ∀ n, R n n) :
    ∃ n, R n t.size ∧ s'.spaceUsed = s.spaceUsed - n := by
  refine ⟨_, ?_, h.spaceUsed_eq⟩
  cases hb : behind key (s.bucket (s.place key)) with
  | none => exact hrefl _
  | some t' => exact hR t h.lookup_eq t' hb

/-! ### The counter is the sum -/

/-- The counter is the sum of the sizes, and within `maxmem`. -/
structure Counted (s : Impl ε) : Prop where
  eq_total : s.spaceUsed.toNat = s.total
  le_maxmem : s.spaceUsed ≤ s.maxmem

theorem Counted.size_le (h : s.Counted) (ht : t ∈ s.triples) : t.size ≤ s.spaceUsed := by
  rw [UInt32.le_iff_toNat_le, h.eq_total]
  exact List.le_sum_of_mem (List.mem_map.2 ⟨t, ht, rfl⟩)

theorem Counted.deletes (h : s.Counted) (hd : s.Deletes key t s') (hfree : s.FreesExactly key) :
    s'.Counted := by
  obtain ⟨n, rfl, hn⟩ := hd.exists_spaceUsed_eq hfree fun _ => rfl
  have hle := h.size_le (lookup_mem_triples hd.lookup_eq)
  have hsub := UInt32.toNat_sub_of_le _ _ hle
  have htotal := hd.total_eq
  have hcount := h.eq_total
  have hmax := h.le_maxmem
  rw [UInt32.le_iff_toNat_le] at hle hmax
  refine ⟨by rw [hn]; omega, ?_⟩
  rw [UInt32.le_iff_toNat_le, hd.frame.1, hn]
  omega

theorem Counted.grow (h : s.Counted) (hg : s.grow = .ok g) : g.Counted := by
  refine ⟨?_, ?_⟩
  · rw [total_eq_of_perm (grow_frame hg).2, grow_spaceUsed hg, h.eq_total]
  · rw [grow_spaceUsed hg, grow_maxmem hg]
    exact h.le_maxmem

theorem Counted.push (h : s.Counted) (hpos : 0 < s.dict.length) (hfit : s.Fits size)
    (hsum : s.FitsUnwrapped size) : (s.push key val size).Counted := by
  refine ⟨?_, hfit⟩
  rw [push_total hpos, Impl.push, UInt32.toNat_add, Nat.mod_eq_of_lt (hsum hfit), h.eq_total]
  exact Nat.add_comm _ _

theorem Counted.of_evictor (h : s.Counted) (e : Option ε) : { s with evictor := e }.Counted :=
  ⟨h.eq_total, h.le_maxmem⟩

theorem counted_new (maxmem : UInt32) (f : FloatVal) (e : Option ε)
    (hash : Option (KeyType → UInt64)) : (new maxmem f e hash).Counted :=
  ⟨by rw [new_total]; rfl, UInt32.zero_le⟩

theorem FitsUnwrapped.grow (h : s.FitsUnwrapped size) (hg : s.grow = .ok g) :
    g.FitsUnwrapped size := by
  rwa [FitsUnwrapped, Fits, grow_spaceUsed hg, grow_maxmem hg]

section Evictor

variable [Evictor ε]

theorem Activation.counted {e : Exit} (h : s.Activation key val size e s') (hs : s.Counted)
    (hsum : s.FitsUnwrapped size)
    (hfree : ∀ g, s.grow = .ok g → ∀ k ∈ g.target key size, g.FreesExactly k) : s'.Counted := by
  refine h.induction (P := Counted) (fun _ _ _ ha => ha.of_evictor _) ?_ ?_ ?_
  · exact fun g hg => hs.grow hg
  · exact fun g hg hgc hpos hfit _ => hgc.push hpos hfit (hsum.grow hg)
  · exact fun g k t g' hg hgc hk hd => hgc.deletes hd (hfree g hg k hk)

theorem Call.counted {o : Op} {r : Result} (h : s.Call o r s') (hs : s.Counted)
    (hA : s.EachActivation (fun a _ size => a.FitsUnwrapped size) o)
    (hD : s.EachDeletion FreesExactly o) : s'.Counted := by
  refine h.induction (P := Counted) hs hD ?_ ?_ ?_ ?_ ?_
  · exact fun _ _ _ ha => ha.of_evictor _
  · exact fun _ _ _ _ _ _ _ ha hg => ha.grow hg
  · rintro key val size a g rfl ha hg hgc hpos hfit _
    exact hgc.push hpos hfit ((hA a ha).grow hg)
  · exact fun _ _ _ _ hgc hfree hd => hgc.deletes hd hfree
  · exact fun _ => ⟨by rw [reset_total]; rfl, UInt32.zero_le⟩

theorem Call.spaceUsed_eq {o : Op} {r : Result} (h : s.Call o r s')
    (h₀ : s.spaceUsed = UInt32.ofNat s.total) (hD : s.EachDeletion FreesExactly o) :
    s'.spaceUsed = UInt32.ofNat s'.total := by
  refine h.induction (P := fun s => s.spaceUsed = UInt32.ofNat s.total) h₀ hD ?_ ?_ ?_ ?_ ?_
  · exact fun _ _ _ h => h
  · intro key val size a g _ _ ha hg
    rw [total_eq_of_perm (grow_frame hg).2, grow_spaceUsed hg, ha]
  · intro key val size a g _ _ _ hg hpos _ _
    rw [push_total hpos, UInt32.ofNat_add, UInt32.ofNat_toNat, ← hg]
    exact UInt32.add_comm _ _
  · intro g k t g' hg hfree hd
    obtain ⟨n, rfl, hn⟩ := hd.exists_spaceUsed_eq hfree fun _ => rfl
    rw [hn, hg, hd.total_eq, UInt32.ofNat_add, UInt32.ofNat_toNat, UInt32.add_comm,
      UInt32.add_sub_cancel]
  · intro _
    rw [reset_total]
    rfl

variable {maxmem : UInt32} {maxLoadFactor : FloatVal} {evictor : Option ε}
  {hasher : Option (KeyType → UInt64)} {H : List (Op × Result)}

theorem spaceUsed_eq_ofNat_total
    (h : (library ε).Reaches (EachDeletion FreesExactly)
      (new maxmem maxLoadFactor evictor hasher) H s) : s.spaceUsed = UInt32.ofNat s.total := by
  refine h.state_invariant (I := fun s => s.spaceUsed = UInt32.ofNat s.total)
    (by rw [new_total]; rfl) fun s o r s' hs hok hst => ?_
  exact (step_cases hst).spaceUsed_eq hs hok

/-- **Byte accounting.**  In a run whose deletions all find a triple of the same size, or none,
behind the one they remove, the counter is the sum of the sizes as long as this is below
`2 ^ 32`; and a successful deletion lowers the counter by exactly the size that it frees if and
only if it is of this kind, too. -/
theorem spaceUsed_eq_total
    (h : (library ε).Reaches (EachDeletion FreesExactly)
      (new maxmem maxLoadFactor evictor hasher) H s) (hlt : s.total < 2 ^ 32) :
    s.spaceUsed.toNat = s.total ∧
      ∀ key t s', s.Deletes key t s' →
        (s'.spaceUsed.toNat + t.size.toNat = s.spaceUsed.toNat ↔ s.FreesExactly key) := by
  have heq : s.spaceUsed.toNat = s.total := by
    rw [spaceUsed_eq_ofNat_total h, UInt32.toNat_ofNat', Nat.mod_eq_of_lt hlt]
  refine ⟨heq, fun key t s' hd => ⟨fun hsub => ?_, fun hfree => ?_⟩⟩
  · -- the two sides determine the size that was subtracted
    intro t₁ ht₁ t' ht'
    obtain rfl : t = t₁ := Option.some.inj (hd.lookup_eq.symm.trans ht₁)
    have hs' := hd.spaceUsed_eq
    rw [Option.mem_def.1 ht', Option.getD_some] at hs'
    have hadd : s'.spaceUsed + t.size = s.spaceUsed := by
      rw [← UInt32.toNat_inj, UInt32.toNat_add, hsub]
      exact Nat.mod_eq_of_lt s.spaceUsed.toNat_lt
    rw [hs', ← UInt32.toNat_inj] at hadd
    have := t'.size.toNat_lt
    have := t.size.toNat_lt
    have := s.spaceUsed.toNat_lt
    rw [← UInt32.toNat_inj]
    simp only [UInt32.toNat_add, UInt32.toNat_sub] at hadd
    omega
  · obtain ⟨n, rfl, hn⟩ := hd.exists_spaceUsed_eq hfree fun _ => rfl
    have hle : t.size ≤ s.spaceUsed := by
      rw [UInt32.le_iff_toNat_le, heq, hd.total_eq]
      exact Nat.le_add_right _ _
    rw [hn, UInt32.toNat_sub_of_le _ _ hle]
    exact Nat.sub_add_cancel (UInt32.le_iff_toNat_le.1 hle)

/-- In the bucket of the key 1, its triple and one of the same size behind it. -/
theorem spaceUsed_eq_total_del : ∃ H s,
    (library LRU).exec (small 1000 (some LRU.new))
      [.set [1] (text "a") 100, .set [3] (text "b") 100, .del [1]] = some (H, s) ∧
    s.spaceUsed.toNat = s.total :=
  Machine.exists_exec ⟨_, _, rfl, by decide⟩ (by decide) fun _ _ h hlt =>
    (spaceUsed_eq_total h hlt).1

/-- Deleting a triple of size 1 subtracts the 100 of the triple behind it. -/
theorem spaceUsed_ne_total : ∃ H s,
    (library LRU).exec (small 1000 (some LRU.new))
      [.set [1] (text "a") 1, .set [3] (text "b") 100, .del [1]] = some (H, s) ∧
    s.total < 2 ^ 32 ∧ s.spaceUsed.toNat ≠ s.total :=
  ⟨_, _, rfl, by decide, by decide⟩

/-! ### The bound on the sum -/

/-- One call keeps the sum below the counter and the counter below `maxmem`. -/
theorem Call.total_le {o : Op} {r : Result} (h : s.Call o r s')
    (h₀ : s.total ≤ s.spaceUsed.toNat ∧ s.spaceUsed ≤ s.maxmem)
    (hA : s.EachActivation (fun a _ size => a.FitsUnwrapped size) o)
    (hD : s.EachDeletion FreesAtMost o) :
    s'.total ≤ s'.spaceUsed.toNat ∧ s'.spaceUsed ≤ s'.maxmem := by
  refine h.induction (P := fun s => s.total ≤ s.spaceUsed.toNat ∧ s.spaceUsed ≤ s.maxmem)
    h₀ hD ?_ ?_ ?_ ?_ ?_
  · exact fun _ _ _ h => h
  · intro key val size a g _ _ ha hg
    rw [total_eq_of_perm (grow_frame hg).2, grow_spaceUsed hg, grow_maxmem hg]
    exact ha
  · rintro key val size a g rfl ha hg ⟨hle, -⟩ hpos hfit _
    have hsum : g.spaceUsed.toNat + size.toNat < 2 ^ 32 := (hA a ha).grow hg hfit
    refine ⟨?_, hfit⟩
    have hcount : (g.push key val size).spaceUsed.toNat = g.spaceUsed.toNat + size.toNat := by
      rw [push, UInt32.toNat_add, Nat.mod_eq_of_lt hsum]
    rw [push_total hpos, hcount]
    omega
  · rintro g k t g' ⟨hle, hmax⟩ hfree hd
    obtain ⟨n, hn, hsub⟩ := hd.exists_spaceUsed_eq hfree fun _ => UInt32.le_refl _
    have htotal := hd.total_eq
    -- what is subtracted has been counted, so that the counter does not wrap below zero
    have hnt : n.toNat ≤ t.size.toNat := hn
    have hns : n ≤ g.spaceUsed := UInt32.le_iff_toNat_le.2 (by omega)
    have hcount : g'.spaceUsed.toNat = g.spaceUsed.toNat - n.toNat := by
      rw [hsub, UInt32.toNat_sub_of_le _ _ hns]
    rw [UInt32.le_iff_toNat_le, hd.frame.1]
    rw [UInt32.le_iff_toNat_le] at hmax
    omega
  · intro _
    rw [reset_total]
    exact ⟨Nat.zero_le _, UInt32.zero_le⟩

/-- **The memory bound.**  The sizes in the table never exceed `maxmem` in a run in which no
deletion subtracts more than it frees and no fit test is passed by a sum that has wrapped. -/
theorem total_le_maxmem
    (h : (library ε).Reaches
      (fun s o => s.EachActivation (fun a _ size => a.FitsUnwrapped size) o ∧
        s.EachDeletion FreesAtMost o)
      (new maxmem maxLoadFactor evictor hasher) H s) : s.total ≤ maxmem.toNat := by
  obtain ⟨hmax, hle, hcount⟩ := h.state_invariant
    (I := fun s => s.maxmem = maxmem ∧ s.total ≤ s.spaceUsed.toNat ∧ s.spaceUsed ≤ s.maxmem)
    ⟨rfl, by rw [new_total]; exact ⟨Nat.zero_le _, UInt32.zero_le⟩⟩
    fun s o r s' ⟨hmax, hle⟩ ⟨hA, hD⟩ hst =>
      ⟨(step_cases hst).maxmem_eq.trans hmax, (step_cases hst).total_le hle hA hD⟩
  rw [hmax, UInt32.le_iff_toNat_le] at hcount
  exact Nat.le_trans hle hcount

/-- A cache that is full, after an overwrite and an eviction. -/
theorem total_le_maxmem_full : ∃ H s,
    (library LRU).exec (small 100 (some LRU.new))
      [.set [1] (text "a") 60, .set [1] (text "b") 40, .set [2] (text "c") 60,
        .set [3] (text "d") 40] = some (H, s) ∧
    s.total ≤ 100 :=
  Machine.exists_exec ⟨_, _, rfl, by trivial⟩ (by decide) fun _ _ h (_ : True) =>
    total_le_maxmem h

/-- Deleting a triple of size 1 makes room for 99 more, next to the 99 that are there. -/
theorem maxmem_lt_total : ∃ H s,
    (library LRU).exec (small 100 (some LRU.new))
      [.set [1] (text "a") 1, .set [3] (text "b") 99, .del [1], .set [5] (text "c") 99] =
        some (H, s) ∧
    100 < s.total :=
  ⟨_, _, rfl, by decide⟩

end Evictor

end Impl

end CrankItUp
