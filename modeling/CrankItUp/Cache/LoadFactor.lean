import CrankItUp.Cache.Doubling
import CrankItUp.Evictor.Lru
import Mathlib.Algebra.Order.Field.Rat
import Mathlib.Tactic.Linarith
import Mathlib.Tactic.Ring

/-!
# The load factor

`set` compares the load factor with its maximum `m / 2 ^ k` after cutting it to a whole number.
The table grows only when the number of elements has reached `m / 2 ^ k`, rounded up to the next
whole number, times the number of buckets.

* `Impl.ratio s` : the exact quotient of the counter of elements and the number of buckets.
* `Impl.Overfull s m k` : the exact quotient exceeds `m / 2 ^ k`, and its whole part does not.
* `Impl.ratio_le_iff_not_overfull` : an insertion respects the maximal load factor exactly if the
  table is not overfull when `set` checks whether to let it grow.
-/

namespace CrankItUp

namespace Impl

variable {ε : Type} (s : Impl ε)

/-- The exact load factor. -/
def ratio : ℚ := s.numElements.toNat / s.dict.length

/-- The number of elements lies between `m / 2 ^ k` and the next whole number above it, times the
number of buckets. -/
def Overfull (m : ℤ) (k : ℕ) : Prop :=
  m * s.dict.length < s.numElements.toNat * 2 ^ k ∧
    s.numElements.toNat < (m / 2 ^ k + 1) * s.dict.length

instance (m : ℤ) (k : ℕ) : Decidable (s.Overfull m k) := inferInstanceAs (Decidable (_ ∧ _))

/-- How many elements for each bucket make the table grow. -/
def limit (m : ℤ) (k : ℕ) : ℕ := (m / 2 ^ k).toNat + 1

/-- The counter has the number of triples, modulo `2 ^ 32`, and these are no more than make the
table grow, unless so many cannot be counted. -/
structure Loaded (m : ℤ) (k : ℕ) : Prop where
  factor : s.maxLoadFactor = .finite m k
  count : s.numElements = UInt32.ofNat s.triples.length
  bound : s.triples.length ≤ limit m k * s.dict.length ∨ 2 ^ 32 ≤ limit m k * s.dict.length
  doubled : s.Doubled

variable {s} {s' g : Impl ε} {key : KeyType} {val : ValType} {size : UInt32} {t : Triple}
  {m : ℤ} {k : ℕ}

theorem limit_eq (hm : 0 ≤ m) : (limit m k : ℤ) = m / 2 ^ k + 1 := by
  rw [limit, Nat.cast_add, Int.toNat_of_nonneg (Int.ediv_nonneg hm (by positivity))]
  rfl

theorem ratio_le_iff_mul (hpos : 0 < s.dict.length) : s.ratio ≤ m / 2 ^ k ↔
    (s.numElements.toNat : ℤ) * 2 ^ k ≤ m * s.dict.length := by
  have hd : (0 : ℚ) < s.dict.length := by exact_mod_cast hpos
  rw [ratio, div_le_div_iff₀ hd (by positivity)]
  exact_mod_cast Iff.rfl

/-- The table grows as soon as there are `limit m k` elements for each bucket. -/
theorem grows_iff (hf : s.maxLoadFactor = .finite m k) (hm : 0 ≤ m) (hpos : 0 < s.dict.length) :
    s.Grows ↔ limit m k * s.dict.length ≤ s.numElements.toNat := by
  rw [Grows, hf, FloatVal.lt, decide_eq_true_iff, ← not_iff_not, not_lt, not_le,
    ← Int.le_ediv_iff_mul_le (by positivity), ← Nat.div_lt_iff_lt_mul hpos,
    ← Int.ofNat_lt, limit_eq hm]
  exact Int.lt_add_one_iff.symm

/-! ### What happens to the number of elements -/

namespace Loaded

theorem toNat_eq (h : s.Loaded m k) : s.numElements.toNat = s.triples.length % 2 ^ 32 := by
  rw [h.count, UInt32.toNat_ofNat']

theorem toNat_le (h : s.Loaded m k) : s.numElements.toNat ≤ limit m k * s.dict.length := by
  have hlt := s.numElements.toNat_lt
  have hle := Nat.mod_le s.triples.length (2 ^ 32)
  rw [← h.toNat_eq] at hle
  rcases h.bound with hb | hb <;> omega

theorem grow (h : s.Loaded m k) (hm : 0 ≤ m) (hg : s.grow = .ok g) :
    g.Loaded m k ∧ g.numElements.toNat < limit m k * g.dict.length ∧
      (s.Grows → g.dict.length = 2 * s.dict.length) := by
  have hlimit : 0 < limit m k * s.dict.length := Nat.mul_pos (Nat.succ_pos _) h.doubled.pos
  have hle := h.toNat_le
  obtain ⟨hpos, ⟨hno, rfl⟩ | ⟨hgr, hre⟩⟩ := grow_cases hg
  · refine ⟨h, ?_, fun hgr => absurd hgr hno⟩
    rwa [grows_iff h.factor hm hpos, not_le] at hno
  · have hreach := (grows_iff h.factor hm hpos).1 hgr
    obtain ⟨d, rfl, hlen, hperm, -, hlt⟩ := resize_cases hre
    -- there are triples to be moved, so that the new table has buckets to move them to
    obtain ⟨t, ht⟩ : ∃ t, t ∈ s.triples := by
      refine List.exists_mem_of_length_pos ?_
      have := Nat.mod_le s.triples.length (2 ^ 32)
      rw [← h.toNat_eq] at this
      omega
    have hd : 0 < d.length := by
      have := hlt t ht
      omega
    obtain ⟨hover, hdoubled⟩ := h.doubled.grow hg hd
    have htwice : d.length = 2 * s.dict.length := hlen.trans (newSize_toNat (hover hgr))
    have hmul : limit m k * d.length = 2 * (limit m k * s.dict.length) := by
      rw [htwice, Nat.mul_left_comm]
    refine ⟨⟨h.factor, ?_, ?_, hdoubled⟩, ?_, fun _ => htwice⟩
    · rw [hperm.length_eq]
      exact h.count
    · rw [hperm.length_eq, hmul]
      rcases h.bound with hb | hb <;> omega
    · show s.numElements.toNat < limit m k * d.length
      omega

theorem push (h : s.Loaded m k) (hlt : s.numElements.toNat < limit m k * s.dict.length) :
    (s.push key val size).Loaded m k := by
  have hlen : (s.push key val size).triples.length = s.triples.length + 1 :=
    (push_triples_perm h.doubled.pos).length_eq
  have hdict : (s.push key val size).dict.length = s.dict.length := by simp [Impl.push]
  refine ⟨h.factor, ?_, ?_, h.doubled.congr hdict⟩
  · rw [hlen, UInt32.ofNat_add, ← h.count]
    rfl
  · rw [hlen, hdict]
    rw [h.toNat_eq] at hlt
    rcases h.bound with hb | hb <;> omega

theorem deletes (h : s.Loaded m k) (hd : s.Deletes key t s') : s'.Loaded m k := by
  have hlen := hd.triples_perm.length_eq
  have hdict := hd.frame.2.2.2
  obtain ⟨_, _, _, _, _, _, rfl⟩ := hd
  rw [List.length_cons] at hlen
  refine ⟨h.factor, ?_, ?_, h.doubled.congr hdict⟩
  · show s.numElements - 1 = _
    rw [h.count, hlen, UInt32.ofNat_add]
    exact UInt32.add_sub_cancel _ _
  · rw [hdict]
    rcases h.bound with hb | hb <;> omega

theorem of_evictor (h : s.Loaded m k) (e : Option ε) : { s with evictor := e }.Loaded m k :=
  ⟨h.factor, h.count, h.bound, h.doubled⟩

theorem new (maxmem : UInt32) (e : Option ε) (hash : Option (KeyType → UInt64)) :
    (new maxmem (.finite m k) e hash).Loaded m k := by
  refine ⟨rfl, ?_, ?_, doubled_new _ _ _ _⟩ <;> rw [new_triples]
  exacts [rfl, .inl (Nat.zero_le _)]

end Loaded

/-! ### The ratio after the growth check -/

theorem next_mul_le (hm : (2 : ℤ) ^ k ≤ 2 * m) : (m / 2 ^ k + 1) * 2 ^ k ≤ 2 * m := by
  have hpow : (0 : ℤ) < 2 ^ k := by positivity
  have hm₀ : 0 ≤ m := by omega
  have hdiv : m / 2 ^ k * 2 ^ k ≤ m := Int.ediv_mul_le m hpow.ne'
  rcases (Int.ediv_nonneg hm₀ hpow.le).eq_or_lt with hzero | hone
  · rw [← hzero, zero_add, one_mul]
    exact hm
  · have hle : 2 ^ k ≤ m / 2 ^ k * 2 ^ k := le_mul_of_one_le_left hpow.le hone
    linarith only [hle, hdiv]

theorem Loaded.ratio_le (h : s.Loaded m k) (hm : (2 : ℤ) ^ k ≤ 2 * m) (hg : s.grow = .ok g)
    (hgr : s.Grows) : g.ratio ≤ m / 2 ^ k := by
  have hm₀ : 0 ≤ m := by
    have : (0 : ℤ) < 2 ^ k := by positivity
    omega
  obtain ⟨hgl, -, hdouble⟩ := h.grow hm₀ hg
  have hnum : g.numElements = s.numElements := by
    obtain ⟨⟨d, rfl⟩, -⟩ := grow_frame hg
    rfl
  have hle : (s.numElements.toNat : ℤ) ≤ (m / 2 ^ k + 1) * s.dict.length := by
    rw [← limit_eq hm₀]
    exact_mod_cast h.toNat_le
  rw [ratio_le_iff_mul hgl.doubled.pos, hnum, hdouble hgr]
  calc (s.numElements.toNat : ℤ) * 2 ^ k
      ≤ (m / 2 ^ k + 1) * s.dict.length * 2 ^ k := by gcongr
    _ = (m / 2 ^ k + 1) * 2 ^ k * s.dict.length := by ring
    _ ≤ 2 * m * s.dict.length :=
      mul_le_mul_of_nonneg_right (next_mul_le hm) (Int.natCast_nonneg _)
    _ = m * (2 * s.dict.length : ℕ) := by push_cast; ring

theorem Loaded.ratio_le_iff (h : s.Loaded m k) (hm : (2 : ℤ) ^ k ≤ 2 * m) (hg : s.grow = .ok g) :
    g.ratio ≤ m / 2 ^ k ↔ ¬ s.Overfull m k := by
  have hm₀ : 0 ≤ m := by
    have : (0 : ℤ) < 2 ^ k := by positivity
    omega
  have hgrows := grows_iff h.factor hm₀ h.doubled.pos
  rw [← Int.ofNat_le, Nat.cast_mul, limit_eq hm₀] at hgrows
  by_cases hgr : s.Grows
  · refine iff_of_true (h.ratio_le hm hg hgr) fun hover => ?_
    exact absurd hover.2 (not_lt.2 (hgrows.1 hgr))
  · -- without growth the quotient is the one before
    obtain ⟨hpos, ⟨-, rfl⟩ | ⟨hgr', -⟩⟩ := grow_cases hg
    · rw [ratio_le_iff_mul hpos, Overfull, ← not_lt, not_iff_not]
      exact (and_iff_left (not_le.1 (mt hgrows.2 hgr))).symm
    · exact absurd hgr' hgr

/-! ### The calls -/

section Evictor

variable [Evictor ε] {maxmem : UInt32} {evictor : Option ε} {hasher : Option (KeyType → UInt64)}
  {H : List (Op × Result)} {a a' : Impl ε}

theorem Activation.loaded {e : Exit} (h : s.Activation key val size e s') (hs : s.Loaded m k)
    (hm : 0 ≤ m) : s'.Loaded m k := by
  refine h.induction (P := fun a => a.Loaded m k) (fun _ x _ ha => ha.of_evictor x) ?_ ?_ ?_
  · exact fun g hg => (hs.grow hm hg).1
  · exact fun g hg hgl _ _ _ => hgl.push (hs.grow hm hg).2.1
  · exact fun _ _ _ _ _ hgl _ hd => hgl.deletes hd

theorem Call.loaded {o : Op} {r : Result} (h : s.Call o r s') (hs : s.Loaded m k) (hm : 0 ≤ m)
    (ho : o ≠ .reset) : s'.Loaded m k := by
  cases h with
  | set hset =>
    exact (set_ends hset).invariant (P := fun a => a.Loaded m k) hs
      fun _ _ _ _ _ ha hb => (setBody_cases hb).loaded ha hm
  | get hget =>
    obtain ⟨-, ⟨-, -, -, rfl⟩ | ⟨_, _, -, -, -, -, rfl⟩⟩ := get_cases hget
    exacts [hs, hs.of_evictor _]
  | del hdel =>
    obtain ⟨-, ⟨-, rfl, -⟩ | ⟨-, _, hd⟩⟩ := del_cases hdel
    exacts [hs, hs.deletes hd]
  | spaceUsed => exact hs
  | reset => exact absurd rfl ho

/-- **The bound on the load factor.**  In a run without resets, with a maximal load factor of one
half or more, an insertion finds no more elements for each bucket than this maximum exactly if the
table is not overfull at the growth check before. -/
theorem ratio_le_iff_not_overfull (hm : (1 / 2 : ℚ) ≤ m / 2 ^ k)
    (h : (library ε).Reaches (fun _ o => o ≠ .reset)
      (new maxmem (.finite m k) evictor hasher) H s)
    (ha : (setLoop key val size).Entered s a) (hb : a.setBody key val size = .ok (.stored, a')) :
    ∃ g, a.grow = .ok g ∧ a' = (g.push key val size).touchKey key ∧
      (g.ratio ≤ m / 2 ^ k ↔ ¬ a.Overfull m k) := by
  have hm' : (2 : ℤ) ^ k ≤ 2 * m := by
    rw [div_le_div_iff₀ (by norm_num) (by positivity), one_mul, mul_comm] at hm
    exact_mod_cast hm
  have hm₀ : 0 ≤ m := by
    have : (0 : ℤ) < 2 ^ k := by positivity
    omega
  have hs : s.Loaded m k := h.state_invariant (.new maxmem evictor hasher)
    fun _ _ _ _ hs ho hst => (step_cases hst).loaded hs hm₀ ho
  have hal : a.Loaded m k := ha.invariant hs fun _ _ _ _ ha hb _ =>
    (setBody_cases hb).loaded ha hm₀
  cases setBody_cases hb with
  | stored hg _ _ _ => exact ⟨_, hg, rfl, hal.ratio_le_iff hm' hg⟩

/-- The third element makes the table grow, and finds half as many elements as buckets. -/
theorem ratio_le_third : ∃ H s, (library LRU).exec (small 1000 (some LRU.new))
    [.set [1] (text "a") 2, .set [2] (text "b") 2] = some (H, s) ∧
    ∃ g, s.grow = .ok g ∧ g.ratio ≤ (3 : ℤ) / 2 ^ 2 :=
  Machine.exists_exec ⟨_, _, rfl, ⟨_, rfl⟩, by decide⟩ (by decide) fun _ s h
    (hD : (∃ a', s.setBody [3] (text "c") 2 = .ok (.stored, a')) ∧ ¬ s.Overfull 3 2) =>
    have ⟨_, hb⟩ := hD.1
    have ⟨g, hg, _, hiff⟩ := ratio_le_iff_not_overfull (by norm_num) h (Loop.entered_self s) hb
    ⟨g, hg, hiff.2 hD.2⟩

/-- The eighth element finds seven elements in eight buckets. -/
theorem ratio_gt_eighth : ∃ H s, (library LRU).exec (small 1000 none)
    [.set [0] (text "a") 2, .set [1] (text "b") 2, .set [2] (text "c") 2, .set [3] (text "d") 2,
      .set [4] (text "e") 2, .set [5] (text "f") 2, .set [6] (text "g") 2] = some (H, s) ∧
    s.grow = .ok s ∧ (∃ s', s.setBody [7] (text "h") 2 = .ok (.stored, s')) ∧
    ¬ s.ratio ≤ 3 / 4 :=
  ⟨_, _, rfl, rfl, ⟨_, rfl⟩, by decide +kernel⟩

end Evictor

end Impl

end CrankItUp
