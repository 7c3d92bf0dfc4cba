import CrankItUp.Cache.LoadFactor
import CrankItUp.Cache.Origin
import CrankItUp.Machine.Potential

/-!
# The work of `set`

A call of `set` may delete any number of triples before it returns, and may move all triples to a
new table.  Over a run it does only a constant amount of work on average: every triple that is
deleted has been stored before, and between two growths as many triples have been stored as the
second one moves.

* `Impl.work s` : what an activation of `set` that starts in `s` does besides searching a bucket.
* `Impl.credit s m k` : what the calls so far have paid in advance, with the maximal load factor
  `m / 2 ^ k`.
* `Impl.setWork_le` : in a run without resets, ten for each call of `set` are enough.
-/

namespace CrankItUp

namespace Impl

variable {ε : Type}

/-- The work of an activation: one for itself, and if the table grows, one for every old bucket,
for every triple that is moved, and for every new bucket. -/
def work (s : Impl ε) : ℕ :=
  1 + if s.Grows then s.dict.length + s.triples.length + s.newSize.toNat else 0

/-- What has been paid in advance: one for every triple, which it takes to delete it, and what it
takes to move the triples once there are so many that the table grows. -/
def credit (s : Impl ε) (m : ℤ) (k : ℕ) : ℕ :=
  s.triples.length + 4 * (2 * s.triples.length - limit m k * s.dict.length)

variable {s s' g : Impl ε} {key : KeyType} {val : ValType} {size : UInt32} {t : Triple}
  {m : ℤ} {k : ℕ}

/-- The growth of the table has been paid for. -/
theorem Loaded.work_grow (h : s.Loaded m k) (hm : 0 ≤ m) (hg : s.grow = .ok g) :
    s.work + g.credit m k ≤ s.credit m k + 1 := by
  have hlen : g.triples.length = s.triples.length := (grow_frame hg).2.length_eq
  obtain ⟨-, ⟨hno, rfl⟩ | ⟨hgr, hre⟩⟩ := grow_cases hg
  · rw [work, if_neg hno]
    omega
  · have hreach := (grows_iff h.factor hm h.doubled.pos).1 hgr
    have hlt := s.numElements.toNat_lt
    have hcount := h.toNat_eq
    -- the counter has not wrapped, and the limit is reached exactly
    have hfull : s.triples.length = limit m k * s.dict.length := by
      have hle := Nat.mod_le s.triples.length (2 ^ 32)
      rcases h.bound with hb | hb <;> omega
    have hbuckets : s.dict.length ≤ limit m k * s.dict.length :=
      Nat.le_mul_of_pos_left _ (Nat.succ_pos _)
    have hsize : s.newSize.toNat ≤ 2 * s.dict.length := by
      rw [newSize, UInt32.toNat_ofNat']
      exact Nat.mod_le _ _
    have hdouble : limit m k * g.dict.length = 2 * (limit m k * s.dict.length) := by
      rw [(h.grow hm hg).2.2 hgr, Nat.mul_left_comm]
    rw [work, if_pos hgr, credit, credit, hlen, hdouble]
    omega

theorem credit_push (hpos : 0 < s.dict.length) (key : KeyType) (val : ValType) (size : UInt32) :
    (s.push key val size).credit m k ≤ s.credit m k + 9 := by
  have hlen : (s.push key val size).triples.length = s.triples.length + 1 :=
    (push_triples_perm hpos).length_eq
  have hdict : (s.push key val size).dict.length = s.dict.length := by simp [Impl.push]
  rw [credit, credit, hlen, hdict]
  omega

theorem Deletes.credit (hd : s.Deletes key t s') : s'.credit m k + 1 ≤ s.credit m k := by
  have hlen := hd.triples_perm.length_eq
  rw [List.length_cons] at hlen
  rw [Impl.credit, Impl.credit, hlen, hd.frame.2.2.2]
  omega

theorem Loaded.work_deletes {k' : KeyType} (h : s.Loaded m k) (hm : 0 ≤ m) (hg : s.grow = .ok g)
    (hd : g.Deletes k' t s') : s.work + s'.credit m k ≤ s.credit m k := by
  have hgrow := h.work_grow hm hg
  have hdel := hd.credit (m := m) (k := k)
  omega

section Evictor

variable [Evictor ε] {e : Exit} {o : Op} {r : Result}

/-- An activation that calls another one pays for itself by deleting a triple. -/
theorem Activation.work_le (h : s.Activation key val size e s') (hs : s.Loaded m k)
    (hm : 0 ≤ m) :
    s.work + s'.credit m k ≤ s.credit m k + if e.again then 0 else 10 := by
  cases h with
  | stored hg hpos =>
    have hgrow := hs.work_grow hm hg
    have hpush := credit_push (m := m) (k := k) hpos key val size
    calc _ ≤ s.work + _ := Nat.add_le_add_left hpush _
      _ ≤ s.credit m k + 10 := by omega
  | overwrites hg _ _ hd | evicts hg _ _ hd =>
    have hpaid : s.work + _ ≤ s.credit m k := hs.work_deletes hm hg hd
    exact hpaid
  | misses hg | refused hg =>
    calc _ ≤ s.credit m k + 1 := hs.work_grow hm hg
      _ ≤ s.credit m k + 10 := by omega

/-- What a call of `set` does in all its activations. -/
def setWork (s : Impl ε) : Op → ℕ
  | .set key val size => ((s.activations key val size).map work).sum
  | .get _ _ | .del _ | .spaceUsed | .reset => 0

theorem Call.setWork_paid (h : s.Call o r s') (hs : s.Loaded m k) (hm : 0 ≤ m) (ho : o ≠ .reset) :
    s.setWork o + s'.credit m k ≤ s.credit m k + if o.IsSet then 10 else 0 := by
  cases h with
  | @set key val size es s' hset =>
    refine (set_ends hset).sum_starts_le (Φ := fun a => a.credit m k) (fun a e a' ha hb => ?_)
      (s.triples.length + 1)
    have hal : a.Loaded m k := ha.invariant hs fun _ _ _ _ ha hb _ =>
      (setBody_cases hb).loaded ha hm
    exact (setBody_cases hb).work_le hal hm
  | get hget =>
    obtain ⟨-, ⟨-, -, -, rfl⟩ | ⟨_, _, -, -, -, -, rfl⟩⟩ := get_cases hget
    all_goals exact Nat.le_of_eq (Nat.zero_add _)
  | del hdel =>
    obtain ⟨-, ⟨-, rfl, -⟩ | ⟨-, _, hd⟩⟩ := del_cases hdel
    · exact Nat.le_of_eq (Nat.zero_add _)
    · have hcredit := hd.credit (m := m) (k := k)
      simp only [setWork, Op.IsSet]
      omega
  | spaceUsed => exact Nat.le_of_eq (Nat.zero_add _)
  | reset => exact absurd rfl ho

/-- **The amortised work of `set` is constant.**  In a run without resets, with a maximal load
factor that is not negative, the calls of `set` start activations, move triples and visit buckets
no more than ten times for each call. -/
theorem setWork_le {maxmem : UInt32} {evictor : Option ε} {hasher : Option (KeyType → UInt64)}
    {H : List (Op × Result)} {n : ℕ} (hm : 0 ≤ m)
    (h : ((library ε).metered setWork).Reaches (fun _ o => o ≠ .reset)
      (new maxmem (.finite m k) evictor hasher, 0) H (s, n)) :
    n ≤ 10 * H.countP fun x => x.1.IsSet := by
  have hpaid := h.metered_le (I := fun s : Impl ε => s.Loaded m k)
    (Φ := fun s => s.credit m k) (D := Op.IsSet) (c := 10) (.new maxmem evictor hasher)
    fun s o r s' hs ho hst =>
      ⟨(step_cases hst).loaded hs hm ho, (step_cases hst).setWork_paid hs hm ho⟩
  have hnew : (new maxmem (.finite m k) evictor hasher).credit m k = 0 := by
    rw [credit, new_triples, List.length_nil, Nat.mul_zero, Nat.zero_sub]
  omega

/-- The third value makes the table grow, and the fourth evicts another one. -/
theorem setWork_le_evicting : ∃ H p, ((library LRU).metered setWork).exec
      (small 6 (some LRU.new), 0)
      [.set [1] (text "a") 2, .set [2] (text "b") 2, .set [3] (text "c") 2, .set [4] (text "d") 2] =
        some (H, p) ∧
    p.2 = 13 ∧ p.2 ≤ 10 * H.countP fun x => x.1.IsSet :=
  Machine.exists_exec ⟨_, _, rfl, by decide⟩ (by decide) fun _ _ h hD =>
    ⟨hD, setWork_le (by decide) h⟩

end Evictor

end Impl

end CrankItUp
