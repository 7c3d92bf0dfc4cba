import CrankItUp.Benchmark.Measurements

/-!
# The index of the 95th percentile

The index is 95 in 100 of the number of measurements, rounded to a whole number.  Rounding goes up
from a half on, and for few measurements it reaches their number, which is no index any more.

* `toNat_percentileIndex` : the index in whole numbers; `percentileIndex_eq_of_roundsTo` : numbers
  of type `double` give the same.
* `percentileIndex_lt_iff` : it is in range exactly if there are more than ten measurements.
* `Driver.percentile_in_range_iff` : when the measurements of several threads have a percentile.
* `percentileLatency_rank` : what the percentile is, where there is one;
  `Driver.threadedPerformance_spec` : what is returned with it.
-/

namespace CrankItUp

/-! ### The index -/

theorem index_remainder (m : ℕ) :
    ∃ k r, (19 * m + 10) / 20 = k ∧ r < 20 ∧ 20 * k + r = 19 * m + 10 :=
  ⟨_, _, rfl, Nat.mod_lt (19 * m + 10) (by decide), Nat.div_add_mod (19 * m + 10) 20⟩

theorem roundHalfAway_mul (m : ℕ) :
    roundHalfAway (m * (19 / 20)) = ((19 * m + 10) / 20 : ℕ) := by
  obtain ⟨k, r, hk, hr, hdiv⟩ := index_remainder m
  rw [hk]
  have hdivQ : (20 * k + r : ℚ) = 19 * m + 10 := by exact_mod_cast hdiv
  have hr0 : (0 : ℚ) ≤ r := Nat.cast_nonneg r
  have hr20 : (r : ℚ) < 20 := by exact_mod_cast hr
  have hm0 : (0 : ℚ) ≤ m := Nat.cast_nonneg m
  refine roundHalfAway_eq (by linarith) ?_ ?_
  · push_cast
    linarith
  · push_cast
    linarith

theorem toNat_percentileIndex {m : ℕ} (hm : m < 2 ^ 32) :
    (percentileIndex m).toNat = (19 * m + 10) / 20 := by
  rw [percentileIndex, roundHalfAway_mul, Int.toNat_natCast, UInt32.toNat_ofNat']
  omega

theorem percentileIndex_lt_iff {m : ℕ} (hm : m < 2 ^ 32) :
    (percentileIndex m).toNat < m ↔ 10 < m := by
  rw [toNat_percentileIndex hm]
  omega

/-- The rounding of 0.95, and what becomes of it when it is multiplied. -/
theorem abs_mul_sub_le {p : ℚ} (hp : RoundsTo (19 / 20) p) (m : ℕ) :
    |m * p - m * (19 / 20)| ≤ m / (5 * 2 ^ 52) := by
  have hdouble : IsDouble (4278419646001971 / 2 ^ 52) :=
    isDouble_of_mul (a := 52) (n := 4278419646001971) (by decide +kernel) (by decide) (by decide)
  have hnear : |19 / 20 - p| ≤ 1 / (5 * 2 ^ 52) :=
    (hp.nearest _ hdouble).trans (by decide +kernel)
  calc |m * p - m * (19 / 20)| = m * |19 / 20 - p| := by
        rw [← mul_sub, abs_mul, Nat.abs_cast, abs_sub_comm]
    _ ≤ m * (1 / (5 * 2 ^ 52)) := by gcongr
    _ = m / (5 * 2 ^ 52) := mul_one_div _ _

theorem roundHalfAway_of_roundsTo {k : ℕ} (hk : k < 2 ^ 33) {d x : ℚ} (hx : RoundsTo d x)
    (h0 : 0 ≤ d) (hle : k - 15 / 32 ≤ d) (hge : d ≤ k + 15 / 32) : roundHalfAway x = k := by
  have hzero : IsDouble 0 := isDouble_intCast (n := 0) (by decide)
  have hlow : IsDouble (k - 15 / 32) :=
    isDouble_of_mul (a := 5) (n := 32 * k - 15) (by push_cast; ring)
      (abs_lt.2 ⟨by omega, by omega⟩) (by decide)
  have hhigh : IsDouble (k + 15 / 32) :=
    isDouble_of_mul (a := 5) (n := 32 * k + 15) (by push_cast; ring)
      (abs_lt.2 ⟨by omega, by omega⟩) (by decide)
  have hxle := hx.ge hlow hle
  have hxge := hx.le hhigh hge
  refine roundHalfAway_eq (hx.ge hzero h0) ?_ ?_
  · push_cast
    linarith
  · push_cast
    linarith

theorem eq_half_of_roundsTo {m k : ℕ} (hm : 0 < m) (hlt : m < 2 ^ 32) (hk : k < 2 ^ 33) {d x : ℚ}
    (hx : RoundsTo d x) (hhalf : m * (19 / 20) = (k - 1 / 2 : ℚ))
    (herr : |d - m * (19 / 20)| ≤ m / (5 * 2 ^ 52)) : x = k - 1 / 2 := by
  have hz : (k - 1 / 2 : ℚ) * 2 ^ 1 = (2 * k - 1 : ℤ) := by
    push_cast
    ring
  have hdouble := isDouble_of_mul hz (abs_lt.2 ⟨by omega, by omega⟩) (by decide)
  have hmQ : (0 : ℚ) < m := by exact_mod_cast hm
  have hltQ : (m : ℚ) < 2 ^ 32 := by exact_mod_cast hlt
  have hpos : |(k - 1 / 2 : ℚ)| = m * (19 / 20) := by
    rw [← hhalf]
    exact abs_of_pos (by linarith)
  rw [hhalf] at herr
  refine hx.eq_of_near hz hdouble ?_ ?_
  · linarith
  · rw [hpos]
    linarith

/-- **Numbers of type `double` give the same index**: the product is rounded to the half where the
exact product is one, and stays between the halves otherwise. -/
theorem percentileIndex_eq_of_roundsTo {m : ℕ} (hm : m < 2 ^ 32) {size p x : ℚ}
    (hsize : RoundsTo m size) (hp : RoundsTo (19 / 20) p) (hx : RoundsTo (size * p) x) :
    UInt32.ofNat (roundHalfAway x).toNat = percentileIndex m := by
  have hexact : size = m :=
    hsize.eq_of_isDouble (isDouble_intCast (n := m) (abs_lt.2 ⟨by omega, by omega⟩))
  subst hexact
  have herr := abs_mul_sub_le hp m
  obtain ⟨k, r, hindex, hr20, hdiv⟩ := index_remainder m
  have hk : k < 2 ^ 33 := by omega
  suffices h : roundHalfAway x = k by
    rw [percentileIndex, roundHalfAway_mul, hindex, h]
  have hdivQ : (20 * k + r : ℚ) = 19 * m + 10 := by exact_mod_cast hdiv
  have hm0 : (0 : ℚ) ≤ m := Nat.cast_nonneg m
  have hmQ : (m : ℚ) < 2 ^ 32 := by exact_mod_cast hm
  obtain ⟨hlow, hhigh⟩ := abs_le.1 herr
  rcases Nat.eq_zero_or_pos r with rfl | hr
  · have hhalf : (m * (19 / 20) : ℚ) = k - 1 / 2 := by
      rw [Nat.cast_zero] at hdivQ
      linarith
    rw [eq_half_of_roundsTo (by omega) hm hk hx hhalf herr]
    refine roundHalfAway_eq (by linarith) ?_ ?_
    · rw [Int.cast_natCast]
    · rw [Int.cast_natCast]
      linarith
  · have hrQ : (1 : ℚ) ≤ r := by exact_mod_cast hr
    have hrQ' : (r : ℚ) ≤ 19 := by exact_mod_cast Nat.le_of_lt_succ hr20
    refine roundHalfAway_of_roundsTo hk hx ?_ ?_ ?_
    · linarith
    · linarith
    · linarith

/-! ### The percentile -/

/-- The element at an index of a sorted list, by what is below it. -/
theorem rank_of_sorted {xs : List ℚ} (h : xs.Pairwise (· ≤ ·)) {i : ℕ} {x : ℚ}
    (hx : xs[i]? = some x) : i < xs.countP (· ≤ x) ∧ xs.countP (· < x) ≤ i := by
  obtain ⟨hi, rfl⟩ := List.getElem?_eq_some_iff.1 hx
  have hget := List.pairwise_iff_getElem.1 h
  constructor
  · -- none of the first `i + 1` is larger
    have hall : (xs.take (i + 1)).countP (· ≤ xs[i]) = (xs.take (i + 1)).length := by
      refine List.countP_eq_length.2 fun y hy => ?_
      obtain ⟨j, hj, rfl⟩ := List.mem_take_iff_getElem.1 hy
      rcases Nat.lt_or_ge j i with hji | hij
      · exact decide_eq_true (hget j i (by omega) hi hji)
      · obtain rfl : j = i := by omega
        exact decide_eq_true le_rfl
    have hsub : (xs.take (i + 1)).countP (· ≤ xs[i]) ≤ xs.countP (· ≤ xs[i]) :=
      (List.take_sublist _ _).countP_le
    rw [hall, List.length_take] at hsub
    omega
  · -- none from `i` on is smaller
    have hnone : (xs.drop i).countP (· < xs[i]) = 0 := by
      refine List.countP_eq_zero.2 fun y hy => ?_
      obtain ⟨j, hj, rfl⟩ := List.mem_drop_iff_getElem.1 hy
      rw [decide_eq_true_eq, not_lt]
      rcases Nat.eq_zero_or_pos j with rfl | hj0
      · exact le_rfl
      · exact hget i (i + j) hi (by omega) (by omega)
    have hsplit : xs.countP (· < xs[i]) =
        (xs.take i).countP (· < xs[i]) + (xs.drop i).countP (· < xs[i]) := by
      rw [← List.countP_append, List.take_append_drop]
    have hfirst : (xs.take i).countP (· < xs[i]) ≤ (xs.take i).length := List.countP_le_length
    rw [List.length_take] at hfirst
    omega

/-- **What the percentile is**: a measurement that is at least as long as 95 in 100 of them, and
longer than no more than 95 in 100 but for the rounding. -/
theorem percentileLatency_rank {measurements : List ℚ} (hm : measurements.length < 2 ^ 32) {x : ℚ}
    (h : percentileLatency measurements = .ok x) : x ∈ measurements ∧
      19 * measurements.length ≤ 20 * measurements.countP (· ≤ x) ∧
      20 * measurements.countP (· < x) ≤ 19 * measurements.length + 10 := by
  have hx := subscript_eq_ok.1 h
  obtain ⟨hle, hlt⟩ := rank_of_sorted (List.pairwise_insertionSort _ _) hx
  have hperm := List.perm_insertionSort (· ≤ ·) measurements
  rw [List.length_insertionSort, toNat_percentileIndex hm] at hle hlt
  rw [hperm.countP_eq] at hle hlt
  refine ⟨hperm.mem_iff.1 (List.mem_of_getElem? hx), ?_, ?_⟩
  · omega
  · omega

theorem percentileLatency_isOk_iff {measurements : List ℚ} (hm : measurements.length < 2 ^ 32) :
    (∃ x, percentileLatency measurements = .ok x) ↔ 10 < measurements.length := by
  unfold percentileLatency
  rw [subscript_isOk_iff, List.length_insertionSort, percentileIndex_lt_iff hm]

theorem performance_isOk_iff {measurements : List ℚ} (hm : measurements.length < 2 ^ 32) :
    (∃ r, performance measurements = .ok r) ↔ 10 < measurements.length := by
  rw [← percentileLatency_isOk_iff hm]
  exact bind_pure_isOk_iff

namespace Driver

variable {driver : Driver} {nthreads nreq : UInt32}

theorem threads_mul_le : nthreads.toNat * (nreq.toNat / nthreads.toNat) < 2 ^ 32 :=
  (Nat.mul_div_le _ _).trans_lt nreq.toNat_lt

theorem baselinePerformance_isOk_iff (exchanges : ℕ → Exchange) :
    (∃ r, driver.baselinePerformance exchanges nthreads nreq = .ok r) ↔ 10 < nreq.toNat := by
  have hlen := driver.length_baselineLatencies exchanges nreq
  have hlt := nreq.toNat_lt
  rw [← hlen] at hlt
  rw [← hlen, ← performance_isOk_iff hlt]
  exact bind_pure_isOk_iff

theorem threadedPerformance_isOk_iff (driver : Driver) (exchanges : ℕ → ℕ → Exchange) :
    (∃ r, driver.threadedPerformance exchanges nthreads nreq = .ok r) ↔
      10 < nthreads.toNat * (nreq.toNat / nthreads.toNat) := by
  by_cases hn : nthreads = 0
  · -- the division by zero
    subst hn
    rw [UInt32.toNat_zero, Nat.zero_mul]
    constructor
    · rintro ⟨r, h⟩
      cases h
    · exact fun h => absurd h (by decide)
  · have h := driver.threadMeasurements_eq exchanges hn nreq
    have hlen := length_of_threadMeasurements hn h
    rw [← hlen, ← performance_isOk_iff (hlen ▸ threads_mul_le), threadedPerformance, h, ok_bind]

/-- **What is returned**: the percentile and the mean throughput of the measurements of all
threads. -/
theorem threadedPerformance_spec {exchanges : ℕ → ℕ → Exchange} {latency : ℚ}
    {throughput : Option ℚ} (hn : nthreads ≠ 0)
    (h : driver.threadedPerformance exchanges nthreads nreq = .ok (latency, throughput)) :
    ∃ measurements, driver.threadMeasurements exchanges nthreads nreq = .ok measurements ∧
      latency ∈ measurements ∧
      19 * measurements.length ≤ 20 * measurements.countP (· ≤ latency) ∧
      20 * measurements.countP (· < latency) ≤ 19 * measurements.length + 10 ∧
      ∀ t, throughput = some t → t = 1000000 * measurements.length / measurements.sum := by
  obtain ⟨measurements, hms, h⟩ := bind_eq_ok.1 h
  obtain ⟨x, hx, h⟩ := bind_eq_ok.1 h
  cases h
  have hlt : measurements.length < 2 ^ 32 := length_of_threadMeasurements hn hms ▸ threads_mul_le
  obtain ⟨hmem, hle, hbelow⟩ := percentileLatency_rank hlt hx
  exact ⟨measurements, hms, hmem, hle, hbelow,
    fun t ht => meanThroughput_eq (whole_of_threadMeasurements hn hms) ht⟩

/-- **When the percentile is in range.**  Several threads measure every request, but for a
remainder, and the index of the percentile is in range exactly if there are more than ten
measurements. -/
theorem percentile_in_range_iff (driver : Driver) (exchanges : ℕ → ℕ → Exchange)
    (nthreads nreq : UInt32) (hn : nthreads ≠ 0) :
    ∃ measurements, driver.threadMeasurements exchanges nthreads nreq = .ok measurements ∧
      measurements.length = nthreads.toNat * (nreq.toNat / nthreads.toNat) ∧
      ((percentileIndex measurements.length).toNat < measurements.length ↔
        10 < nthreads.toNat * (nreq.toNat / nthreads.toNat)) ∧
      ((∃ r, driver.threadedPerformance exchanges nthreads nreq = .ok r) ↔
        10 < nthreads.toNat * (nreq.toNat / nthreads.toNat)) := by
  have h := driver.threadMeasurements_eq exchanges hn nreq
  have hlen := length_of_threadMeasurements hn h
  refine ⟨_, h, hlen, ?_, threadedPerformance_isOk_iff driver exchanges⟩
  rw [hlen]
  exact percentileIndex_lt_iff threads_mul_le

/-- The response times of every thread count up from 0. -/
def countingExchanges (_ j : ℕ) : Exchange := ⟨⟨11, .get, []⟩, .ok, j⟩

/-- With the numbers of threads and requests that are set by default the index is in range. -/
theorem percentile_in_range_default :
    ∃ r, Driver.new.threadedPerformance countingExchanges 2 100 = .ok r := by
  obtain ⟨-, -, -, -, h⟩ :=
    percentile_in_range_iff Driver.new countingExchanges 2 100 (by decide)
  exact h.2 (by decide)

/-- Two threads with five requests each: there are ten measurements, and the index is 10. -/
theorem percentile_out_of_range :
    (Driver.new.threadMeasurements countingExchanges 2 10).toOption.map List.length = some 10 ∧
      (percentileIndex 10).toNat = 10 ∧
      Driver.new.threadedPerformance countingExchanges 2 10 = .error .outOfBounds :=
  ⟨by decide +kernel, by decide +kernel, by decide +kernel⟩

end Driver

end CrankItUp
