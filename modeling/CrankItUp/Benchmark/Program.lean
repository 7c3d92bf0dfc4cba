import CrankItUp.Benchmark.Percentile

/-!
# The runs of the benchmark

`main` measures with every number of threads up to the one that is asked for, and each time reads
the percentile of the measurements.  It ends if all of these are in range.

* `Enough b k` : with `k` threads and `b` requests there are enough measurements.
* `benchmark_ends_iff` : the numbers of threads and requests with which the program ends;
  `benchmark_ends_iff_le` : for twenty requests or more.
-/

namespace CrankItUp

variable {driver : Driver} {exchanges : ℕ → ℕ → ℕ → Exchange} {numThreads numBench : UInt32}
  {st st' : Report} {es : List Bool}

/-- With `k` threads there are enough measurements. -/
def Enough (numBench : UInt32) (k : ℕ) : Prop := 10 < k * (numBench.toNat / k)

theorem toNat_next {n : UInt32} (h : n.toNat + 1 < 2 ^ 32) : (n + 1).toNat = n.toNat + 1 := by
  rw [UInt32.toNat_add, UInt32.toNat_one, Nat.mod_eq_of_lt h]

theorem benchmarkLoop_body {b : Bool} (h : (benchmarkLoop driver exchanges numThreads numBench).body
    st = .ok (b, st')) : (b = false ∧ ¬ st.n ≤ numThreads) ∨
      (b = true ∧ Enough numBench st.n.toNat ∧ st'.n = st.n + 1) := by
  simp only [benchmarkLoop] at h
  split at h
  · obtain ⟨stats, hstats, h⟩ := bind_eq_ok.1 h
    cases h
    exact .inr ⟨rfl, (Driver.threadedPerformance_isOk_iff _ _).1 ⟨stats, hstats⟩, rfl⟩
  · rename_i hlast
    cases h
    exact .inl ⟨rfl, hlast⟩

theorem enough_of_ends (h : (benchmarkLoop driver exchanges numThreads numBench).Ends st es st') :
    numThreads.toNat + 1 < 2 ^ 32 ∧
      ∀ k, st.n.toNat ≤ k → k ≤ numThreads.toNat → Enough numBench k := by
  induction h with
  | @last st _ _ hb hno =>
    obtain ⟨-, hlast⟩ | ⟨rfl, -⟩ := benchmarkLoop_body hb
    · rw [UInt32.le_iff_toNat_le] at hlast
      have hlt := st.n.toNat_lt
      exact ⟨by omega, fun k hk hle => absurd (hk.trans hle) hlast⟩
    · cases hno
  | @more st st₁ _ _ _ hb hagain _ ih =>
    obtain ⟨rfl, -⟩ | ⟨-, henough, hn⟩ := benchmarkLoop_body hb
    · cases hagain
    · refine ⟨ih.1, fun k hk hle => ?_⟩
      rcases Nat.eq_or_lt_of_le hk with rfl | hk
      · exact henough
      · refine ih.2 k ?_ hle
        have hlt := numThreads.toNat_lt
        rw [hn, toNat_next (by omega)]
        exact hk

theorem ends_of_enough (hmax : numThreads.toNat + 1 < 2 ^ 32)
    (h : ∀ k, st.n.toNat ≤ k → k ≤ numThreads.toNat → Enough numBench k) :
    ∃ es st', (benchmarkLoop driver exchanges numThreads numBench).Ends st es st' := by
  induction hμ : numThreads.toNat + 1 - st.n.toNat generalizing st with
  | zero =>
    have hlast : ¬ st.n ≤ numThreads := by
      rw [UInt32.le_iff_toNat_le]
      omega
    exact ⟨[false], st, .last (if_neg hlast) rfl⟩
  | succ μ ih =>
    have hle : st.n ≤ numThreads := by
      rw [UInt32.le_iff_toNat_le]
      omega
    have hn : (st.n + 1).toNat = st.n.toNat + 1 := toNat_next (by omega)
    obtain ⟨stats, hstats⟩ := (driver.threadedPerformance_isOk_iff
      (exchanges st.n.toNat)).2 (h _ le_rfl (by omega))
    obtain ⟨es, st', hrest⟩ :=
      @ih ⟨st.n + 1, st.ninetyFifths ++ [stats.1], st.throughputs ++ [stats.2]⟩
      (fun k hk => h k (by rw [hn] at hk; omega)) (by rw [hn]; omega)
    refine ⟨true :: es, st', .more ?_ rfl hrest⟩
    simp only [benchmarkLoop, if_pos hle, hstats, ok_bind]
    rfl

/-- **When the program ends**: if there are enough measurements with every number of threads.  At
the largest number of threads the counter wraps. -/
theorem benchmark_ends_iff :
    (∃ es st, (benchmarkLoop driver exchanges numThreads numBench).Ends .start es st) ↔
      numThreads.toNat + 1 < 2 ^ 32 ∧
        ∀ k, 1 ≤ k → k ≤ numThreads.toNat → 10 < k * (numBench.toNat / k) := by
  constructor
  · rintro ⟨es, st, h⟩
    exact enough_of_ends h
  · rintro ⟨hmax, h⟩
    exact ends_of_enough hmax h

/-- With twenty requests or more it is enough that each thread has one. -/
theorem enough_iff_le (hb : 20 ≤ numBench.toNat) {k : ℕ} (hk : 1 ≤ k) :
    Enough numBench k ↔ k ≤ numBench.toNat := by
  unfold Enough
  constructor
  · intro h
    by_contra hlt
    rw [Nat.div_eq_of_lt (by omega), Nat.mul_zero] at h
    omega
  · intro hle
    have hdiv := Nat.div_add_mod numBench.toNat k
    have hmod := Nat.mod_lt numBench.toNat hk
    have hone : k * 1 ≤ k * (numBench.toNat / k) :=
      Nat.mul_le_mul_left k ((Nat.one_le_div_iff hk).2 hle)
    omega

theorem benchmark_ends_iff_le (hb : 20 ≤ numBench.toNat) :
    (∃ es st, (benchmarkLoop driver exchanges numThreads numBench).Ends .start es st) ↔
      numThreads.toNat + 1 < 2 ^ 32 ∧ numThreads ≤ numBench := by
  rw [benchmark_ends_iff, UInt32.le_iff_toNat_le]
  refine and_congr_right fun _ => ⟨fun h => ?_, fun h k hk hle => ?_⟩
  · rcases Nat.eq_zero_or_pos numThreads.toNat with h0 | hpos
    · omega
    · exact (enough_iff_le hb hpos).1 (h _ hpos le_rfl)
  · exact (enough_iff_le hb hk).2 (hle.trans h)

end CrankItUp
