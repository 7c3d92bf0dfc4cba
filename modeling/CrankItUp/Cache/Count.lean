import CrankItUp.Cache.Placeholders
import CrankItUp.Evictor.Lru

/-!
# Counting the elements

`set` counts every triple that it stores and `del` every one that it deletes, placeholders
included; `reset` does not touch the counter.

* `Impl.Counts p o` : the call resets the cache only while the counter is 0, deletes no placeholder
  and does not let the counter overflow.
* `Impl.Tallied s n` : the counter is the number of triples that are not among the `n` placeholders.
  Every such call keeps this.
* `Impl.numElements_eq_stored` : in runs of such calls the counter is the number of stored triples,
  and the number of buckets is bounded by it.
-/

namespace CrankItUp

/-- A float of one half or more. -/
def FloatVal.AtLeastHalf : FloatVal → Prop
  | .finite m k => (2 : ℤ) ^ k ≤ 2 * m
  | .inf negative => negative = false
  | .nan => False

instance : ∀ f : FloatVal, Decidable f.AtLeastHalf
  | .finite _ _ => inferInstanceAs (Decidable (_ ≤ _))
  | .inf _ => inferInstanceAs (Decidable (_ = _))
  | .nan => isFalse id

theorem FloatVal.AtLeastHalf.pos {f : FloatVal} (h : f.AtLeastHalf) {n : ℕ} (hlt : f.lt n = true) :
    0 < n := by
  rw [Nat.pos_iff_ne_zero]
  rintro rfl
  cases f with
  | finite m k =>
    have hpow : (0 : ℤ) < 2 ^ k := Int.pow_pos (by decide)
    simp only [FloatVal.AtLeastHalf] at h
    simp only [FloatVal.lt, decide_eq_true_eq] at hlt
    omega
  | inf negative => exact absurd (h.symm.trans hlt) (by decide)
  | nan => exact h

namespace Impl

variable {ε : Type} {s s' g : Impl ε} {key k : KeyType} {val : ValType} {size : UInt32}
  {t : Triple} {n : ℕ}

/-- The counter is the number of triples other than the `n` placeholders. -/
structure Tallied (s : Impl ε) (n : ℕ) : Prop where
  half : s.maxLoadFactor.AtLeastHalf
  held : n ≤ s.defaults
  count : s.numElements.toNat + n = s.triples.length

theorem Tallied.stored_eq (h : s.Tallied n) : s.stored n = s.numElements.toNat := by
  rw [stored, ← h.count, Nat.add_sub_cancel]

theorem Tallied.length_le_of_grows (h : s.Tallied n) (hgr : s.Grows) :
    s.dict.length ≤ s.numElements.toNat :=
  (Nat.div_pos_iff.1 (h.half.pos hgr)).2

theorem Tallied.grow (h : s.Tallied n) (hg : s.grow = .ok g) :
    g.Tallied n ∧ g.dict.length ≤ max s.dict.length (2 * s.numElements.toNat) := by
  obtain ⟨-, ⟨-, rfl⟩ | ⟨hgr, hre⟩⟩ := grow_cases hg
  · exact ⟨h, Nat.le_max_left _ _⟩
  · have hle := h.length_le_of_grows hgr
    obtain ⟨d, rfl, hlen, hperm, -⟩ := resize_cases hre
    refine ⟨⟨h.half, defaults_eq_of_perm hperm ▸ h.held, ?_⟩, ?_⟩
    · rw [hperm.length_eq]
      exact h.count
    · have hsize : s.newSize.toNat ≤ 2 * s.dict.length := by
        rw [newSize, UInt32.toNat_ofNat']
        exact Nat.mod_le _ _
      dsimp only
      omega

theorem Tallied.push (h : s.Tallied n) (hpos : 0 < s.dict.length)
    (hmax : s.numElements ≠ 4294967295) : (s.push key val size).Tallied n := by
  refine ⟨h.half, Nat.le_trans h.held (defaults_le_push hpos), ?_⟩
  have hlen : (s.push key val size).triples.length = s.triples.length + 1 :=
    (push_triples_perm hpos).length_eq
  have hnum : (s.push key val size).numElements.toNat = s.numElements.toNat + 1 := by
    have hlt := s.numElements.toNat_lt
    have hne : s.numElements.toNat ≠ 4294967295 := fun h => hmax (UInt32.toNat_inj.1 h)
    show (s.numElements + 1).toNat = _
    rw [UInt32.toNat_add, UInt32.toNat_one, Nat.mod_eq_of_lt (by omega)]
  have := h.count
  omega

theorem Tallied.deletes (h : s.Tallied n) (hd : s.Deletes key t s')
    (ht : n = 0 ∨ t ≠ Triple.default) : s'.Tallied n := by
  have hlen := hd.triples_perm.length_eq
  have hdef := hd.defaults_eq
  have hcount := h.count
  have hheld := h.held
  have hle : s'.defaults ≤ s'.triples.length := List.count_le_length
  have hheld' : n ≤ s'.defaults := by
    rcases ht with rfl | ht
    · exact Nat.zero_le _
    · rwa [hd.defaults_of_ne ht] at hheld
  rw [List.length_cons] at hlen
  have hnum : s'.numElements.toNat = s.numElements.toNat - 1 := by
    obtain ⟨_, _, _, _, _, _, rfl⟩ := hd
    have hone : 1 ≤ s.numElements := UInt32.le_iff_toNat_le.2 (by rw [UInt32.toNat_one]; omega)
    exact UInt32.toNat_sub_of_le _ _ hone
  have hfactor : s'.maxLoadFactor = s.maxLoadFactor := by
    obtain ⟨_, _, _, _, _, _, rfl⟩ := hd
    rfl
  exact ⟨hfactor ▸ h.half, hheld', by omega⟩

theorem Tallied.of_evictor (h : s.Tallied n) (e : Option ε) : { s with evictor := e }.Tallied n :=
  ⟨h.half, h.held, h.count⟩

theorem Tallied.reset (h : s.Tallied n) (hzero : s.numElements = 0) :
    s.reset.Tallied s.dict.length := by
  refine ⟨h.half, Nat.le_of_eq reset_defaults.symm, ?_⟩
  rw [reset_triples, List.length_replicate]
  show s.numElements.toNat + _ = _
  rw [hzero, UInt32.toNat_zero, Nat.zero_add]

/-! ### The calls -/

section Evictor

variable [Evictor ε] {e : Exit} {γ : Ghost} {o : Op} {r : Result} {q : Impl ε × Ghost}

/-- If the activation stores its triple, the counter does not overflow. -/
def CountsUp (a : Impl ε) (key : KeyType) (size : UInt32) : Prop :=
  ∀ g, a.grow = .ok g → g.Fits size → g.lookup key = none → g.numElements ≠ 4294967295

instance (a : Impl ε) (key : KeyType) (size : UInt32) : Decidable (a.CountsUp key size) :=
  match hg : a.grow with
  | .error _ => isTrue fun _ h => nomatch hg.symm.trans h
  | .ok g => decidable_of_iff
      (g.Fits size → g.lookup key = none → g.numElements ≠ 4294967295)
      ⟨fun h g' hg' => by cases hg.symm.trans hg'; exact h, fun h => h g hg⟩

/-- The call deletes no placeholder, stores nothing that cannot be counted, and resets the cache
only where the counter is 0. -/
structure Counts (p : Impl ε × Ghost) (o : Op) : Prop where
  keeps : p.2.placeholders = 0 ∨ p.1.EachDeletion (fun g k => g.lookup k ≠ some Triple.default) o
  counts : p.1.EachActivation CountsUp o
  empty : o = .reset → p.1.numElements = 0

instance (p : Impl ε × Ghost) (o : Op) : Decidable (Counts p o) :=
  decidable_of_iff ((p.2.placeholders = 0 ∨
      p.1.EachDeletion (fun g k => g.lookup k ≠ some Triple.default) o) ∧
      p.1.EachActivation CountsUp o ∧ (o = .reset → p.1.numElements = 0))
    ⟨fun ⟨hk, hc, he⟩ => ⟨hk, hc, he⟩, fun ⟨hk, hc, he⟩ => ⟨hk, hc, he⟩⟩

theorem Activation.tallied (h : s.Activation key val size e s') (hs : s.Tallied n)
    (hkeep : n = 0 ∨ ∀ g, s.grow = .ok g → ∀ k ∈ g.target key size,
      g.lookup k ≠ some Triple.default) (hcount : s.CountsUp key size) :
    s'.Tallied n ∧ spend s s' n = n ∧
      s'.dict.length ≤ max s.dict.length (2 * s.numElements.toNat) := by
  refine ⟨?_, ?_, ?_⟩
  · refine h.induction (P := fun a => a.Tallied n) (fun _ x _ ha => ha.of_evictor x) ?_ ?_ ?_
    · exact fun g hg => (hs.grow hg).1
    · exact fun g hg hgt hpos hfit hl => hgt.push hpos (hcount g hg hfit hl)
    · intro g k t g' hg hgt hk hd
      refine hgt.deletes hd (hkeep.imp_right fun hne ht => ?_)
      exact hne g hg k hk (ht ▸ hd.lookup_eq)
  · rcases hkeep with rfl | hne
    · exact Nat.zero_sub _
    · exact (h.spend_eq n).resolve_right fun ⟨g, hg, k, hk, hl⟩ => hne g hg k hk hl
  · refine h.induction
      (P := fun a => a.dict.length ≤ max s.dict.length (2 * s.numElements.toNat))
      (fun _ _ _ ha => ha) ?_ ?_ ?_
    · exact fun g hg => (hs.grow hg).2
    · exact fun g _ hle _ _ _ => by simpa [Impl.push] using hle
    · exact fun g _ _ _ _ hle _ hd => hd.frame.2.2.2 ▸ hle

/-- What a state and its ghost say about each other. -/
structure Sized (p : Impl ε × Ghost) : Prop where
  tallied : p.1.Tallied p.2.placeholders
  le_peak : p.1.numElements.toNat ≤ p.2.peak
  buckets : p.1.dict.length ≤ max 2 (4 * p.2.peak)

/-- No activation changes the number of placeholders or has more elements than the first. -/
theorem tallied_of_entered (hs : s.Tallied n) {a : Impl ε × ℕ}
    (ha : (trackedLoop key val size).Entered (s, n) a)
    (hkeep : n = 0 ∨ s.EachDeletion (fun g k => g.lookup k ≠ some Triple.default)
      (.set key val size))
    (hcount : s.EachActivation CountsUp (.set key val size)) :
    a.1.Tallied n ∧ a.2 = n ∧ a.1.numElements.toNat ≤ s.numElements.toNat := by
  refine ha.invariant
    (P := fun a => a.1.Tallied n ∧ a.2 = n ∧ a.1.numElements.toNat ≤ s.numElements.toNat)
    ⟨hs, rfl, Nat.le_refl _⟩ ?_
  rintro ⟨a, m⟩ e ⟨a', m'⟩ ha ⟨hat, hm, hle⟩ hb hag
  obtain rfl : m = n := hm
  obtain ⟨hb', rfl⟩ := trackedLoop_body.1 hb
  obtain ⟨hat', hspend, -⟩ := (setBody_cases hb').tallied hat
    (hkeep.imp_right fun hD => hD a ha.erase) (hcount a ha.erase)
  have hlt := triples_length_of_calls ⟨e, hb', hag⟩
  have hcount := hat.count
  have hcount' := hat'.count
  refine ⟨hat', hspend, ?_⟩
  dsimp only at *
  omega

theorem TrackedCall.sized (h : s.TrackedCall γ o r q) (hs : Sized (s, γ)) (ho : Counts (s, γ) o) :
    Sized q := by
  obtain ⟨hst, hpeak, hlen⟩ := hs
  cases h with
  | @set key val size es s' m hends =>
    have hstep : ∀ a : Impl ε × ℕ, (trackedLoop key val size).Entered (s, γ.placeholders) a →
        ∀ e b, (trackedLoop key val size).body a = .ok (e, b) →
        b.1.Tallied γ.placeholders ∧ b.2 = γ.placeholders ∧
          b.1.dict.length ≤ max a.1.dict.length (2 * γ.peak) := by
      rintro ⟨a, m⟩ ha e ⟨b, m'⟩ hb
      obtain ⟨hat, hm, hle⟩ := tallied_of_entered hst ha ho.keeps ho.counts
      obtain rfl : m = γ.placeholders := hm
      obtain ⟨hb', rfl⟩ := trackedLoop_body.1 hb
      obtain ⟨hbt, hspend, hbuckets⟩ := (setBody_cases hb').tallied hat
        (ho.keeps.imp_right fun hD => hD a ha.erase) (ho.counts a ha.erase)
      refine ⟨hbt, hspend, ?_⟩
      dsimp only at *
      omega
    obtain ⟨hst', rfl, hlen'⟩ := hends.invariant
      (P := fun b => b.1.Tallied γ.placeholders ∧ b.2 = γ.placeholders ∧
        b.1.dict.length ≤ max 2 (4 * γ.peak)) ⟨hst, rfl, hlen⟩ fun a e b ha _ hP hb => by
      obtain ⟨hbt, hbn, hbl⟩ := hstep a ha e b hb
      have := hP.2.2
      exact ⟨hbt, hbn, by omega⟩
    refine ⟨hst', ?_, ?_⟩ <;> dsimp only at *
    · rw [hst'.stored_eq]
      exact Nat.le_max_right _ _
    · omega
  | get hget =>
    obtain ⟨-, ⟨-, -, -, rfl⟩ | ⟨_, _, -, -, -, -, rfl⟩⟩ := get_cases hget
    exacts [⟨hst, hpeak, hlen⟩, ⟨hst.of_evictor _, hpeak, hlen⟩]
  | kept => exact ⟨hst, hpeak, hlen⟩
  | @del key t s' hd =>
    have ht : γ.placeholders = 0 ∨ t ≠ Triple.default :=
      ho.keeps.imp_right fun hne ht => hne (ht ▸ hd.lookup_eq)
    have hst' := hst.deletes hd ht
    have hleft : γ.placeholders - (if t = Triple.default then 1 else 0) = γ.placeholders := by
      rcases ht with ht | ht <;> simp [ht]
    have hlt := hd.triples_perm.length_eq
    rw [List.length_cons] at hlt
    refine ⟨hleft.symm ▸ hst', ?_, hd.frame.2.2.2 ▸ hlen⟩
    have := hst.count
    have := hst'.count
    dsimp only at *
    omega
  | spaceUsed => exact ⟨hst, hpeak, hlen⟩
  | reset =>
    refine ⟨hst.reset (ho.empty rfl), hpeak, ?_⟩
    rw [show s.reset.dict.length = s.dict.length from List.length_map _]
    exact hlen

variable {maxmem : UInt32} {maxLoadFactor : FloatVal} {evictor : Option ε}
  {hasher : Option (KeyType → UInt64)} {H : List (Op × Result)}

/-- **The counter of elements.**  With a maximal load factor of one half or more, in a run that
resets the cache only while the counter is 0, deletes no placeholder and does not let the counter
overflow, the counter is the number of triples in the table that have been stored, and the number
of buckets is at most four times the largest such number in the run, or 2. -/
theorem numElements_eq_stored (hf : maxLoadFactor.AtLeastHalf)
    (h : (tracked ε).Reaches Counts (new maxmem maxLoadFactor evictor hasher, ⟨0, 0⟩) H (s, γ)) :
    s.numElements.toNat = s.stored γ.placeholders ∧ s.dict.length ≤ max 2 (4 * γ.peak) := by
  have hs : Sized (s, γ) := by
    refine h.state_invariant (I := Sized) ⟨⟨hf, Nat.zero_le _, ?_⟩, Nat.le_refl _, ?_⟩ ?_
    · rw [new_triples]
      rfl
    · simp [new, defaultCapacity]
    · rintro ⟨s, γ⟩ o r q hs ho hst
      exact (trackedStep_cases hst).sized hs ho
  exact ⟨hs.tallied.stored_eq.symm, hs.buckets⟩

/-- The cache is emptied before it is reset, and used again. -/
theorem numElements_eq_stored_reset : ∃ H p, (tracked LRU).exec
      (small 1000 (some LRU.new), ⟨0, 0⟩)
      [.set [1] (text "a") 2, .set [2] (text "b") 2, .del [1], .del [2], .reset,
        .set [3] (text "c") 2] = some (H, p) ∧
    p.2 = ⟨2, 2⟩ ∧ p.1.numElements.toNat = p.1.stored p.2.placeholders :=
  Machine.exists_exec ⟨_, _, rfl, rfl⟩ (by decide) fun _ _ h hγ =>
    ⟨hγ, (numElements_eq_stored (by decide) h).1⟩

/-- A reset does not clear the counter; deleting a placeholder makes it wrap below zero. -/
theorem numElements_ne_stored : (∃ H p, (tracked LRU).exec (small 1000 (some LRU.new), ⟨0, 0⟩)
      [.set [1] (text "a") 2, .reset] = some (H, p) ∧
      p.1.numElements = 1 ∧ p.1.stored p.2.placeholders = 0) ∧
    ∃ H p, (tracked LRU).exec (small 1000 (some LRU.new), ⟨0, 0⟩) [.reset, .del []] =
      some (H, p) ∧ p.1.numElements = 4294967295 ∧ p.1.stored p.2.placeholders = 0 :=
  ⟨⟨_, _, rfl, rfl, rfl⟩, _, _, rfl, rfl, rfl⟩

end Evictor

end Impl

end CrankItUp
