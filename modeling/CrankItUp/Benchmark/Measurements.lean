import CrankItUp.Benchmark.Basic
import Mathlib.Algebra.BigOperators.Group.List.Basic

/-!
# What the threads measure

The loop of a thread measures every response once, and the main thread reads each of these
measurements once, by its index.

* `foldlM_range_append` : a loop over indices each of whose passes appends to a list.
* `Driver.threadMeasurements_eq` : the measurements of the threads one after another, none of them
  read outside its list; `Driver.length_of_threadMeasurements` : their number.
* `Driver.baselineLatencies_eq` : what a thread measures and counts.
* `latencySum_eq_sum` : the sum in an `int` is exact, if there is one.
-/

namespace CrankItUp

variable {α F : Type}

/-! ### Loops that collect -/

theorem foldlM_range_append {f : List α → ℕ → Except F (List α)} {g : ℕ → List α} {n : ℕ}
    (hf : ∀ i < n, ∀ acc, f acc i = .ok (acc ++ g i)) (acc : List α) :
    (List.range n).foldlM f acc = .ok (acc ++ (List.range n).flatMap g) := by
  induction n with
  | zero =>
    rw [List.range_zero, List.flatMap_nil, List.append_nil]
    rfl
  | succ n ih =>
    have hfirst := ih fun i hi => hf i (Nat.lt_succ_of_lt hi)
    rw [List.range_succ, List.foldlM_append, hfirst, ok_bind, List.foldlM_cons,
      hf n (Nat.lt_succ_self n), ok_bind, List.flatMap_append, List.flatMap_singleton,
      List.append_assoc]
    rfl

theorem subscript_eq_ok {xs : List α} {i : ℕ} {x : α} :
    subscript xs i = .ok x ↔ xs[i]? = some x := by
  unfold subscript
  split
  · rename_i y hy
    rw [hy, Except.ok.injEq, Option.some.injEq]
  · rename_i hy
    rw [hy]
    simp

theorem subscript_isOk_iff {xs : List α} {i : ℕ} :
    (∃ x, subscript xs i = .ok x) ↔ i < xs.length := by
  simp only [subscript_eq_ok, List.getElem?_eq_some_iff]
  exact ⟨fun ⟨_, hi, _⟩ => hi, fun hi => ⟨_, hi, rfl⟩⟩

theorem flatMap_getElem? (xs : List α) (n : ℕ) :
    ((List.range n).flatMap fun j => xs[j]?.toList) = xs.take n := by
  induction n with
  | zero => rfl
  | succ n ih =>
    rw [List.range_succ, List.flatMap_append, ih, List.flatMap_singleton, List.take_add_one]

theorem foldlM_subscript {xs : List α} {n : ℕ} (h : xs.length = n) (acc : List α) :
    (List.range n).foldlM (fun acc j => do
      let x ← subscript xs j
      return acc ++ [x]) acc = .ok (acc ++ xs) := by
  rw [foldlM_range_append (g := fun j => xs[j]?.toList), flatMap_getElem?, ← h, List.take_length]
  intro j hj acc
  rw [← h] at hj
  rw [subscript_eq_ok.2 (List.getElem?_eq_getElem hj), ok_bind, List.getElem?_eq_getElem hj]
  rfl

/-! ### The threads -/

namespace Driver

variable {driver : Driver} {nthreads nreq : UInt32}

/-- A hit is a `GET` whose response has another status than `not_found`. -/
def IsHit (e : Exchange) : Prop := e.request.method = .get ∧ e.status ≠ .notFound

instance (e : Exchange) : Decidable (IsHit e) := inferInstanceAs (Decidable (_ ∧ _))

theorem count_eq (e : Exchange) : driver.count e =
    ⟨driver.numRequests + 1, driver.numHits + if IsHit e then 1 else 0⟩ := by
  unfold count IsHit
  by_cases hget : e.request.method = .get
  · by_cases hmiss : e.status = .notFound
    · simp [hget, hmiss]
    · simp [hget, hmiss]
  · simp [hget]

/-- **What a thread measures and counts**: every response time, every request and every hit. -/
theorem baselineLatencies_eq (exchanges : ℕ → Exchange) :
    driver.baselineLatencies exchanges nreq =
      ((List.range nreq.toNat).map fun i => ((exchanges i).responseTime : ℚ),
        ⟨driver.numRequests + nreq.toNat,
          driver.numHits + (List.range nreq.toNat).countP fun i => IsHit (exchanges i)⟩) := by
  unfold baselineLatencies
  induction nreq.toNat with
  | zero => rfl
  | succ n ih =>
    rw [List.range_succ, List.foldl_append, ih, List.foldl_cons, List.foldl_nil]
    simp only [count_eq, List.map_append, List.map_cons, List.map_nil, List.countP_append,
      List.countP_singleton, decide_eq_true_eq, Nat.add_assoc]

theorem length_baselineLatencies (driver : Driver) (exchanges : ℕ → Exchange) (nreq : UInt32) :
    (driver.baselineLatencies exchanges nreq).1.length = nreq.toNat := by
  rw [baselineLatencies_eq, List.length_map, List.length_range]

theorem getHitRate_le (exchanges : ℕ → Exchange) {rate : ℚ}
    (h : (Driver.new.baselineLatencies exchanges nreq).2.getHitRate = some rate) :
    rate ≤ ((List.range nreq.toNat).countP fun i => (exchanges i).request.method = .get) /
      nreq.toNat := by
  have hcount : (List.range nreq.toNat).countP (fun i => IsHit (exchanges i)) ≤
      (List.range nreq.toNat).countP fun i => (exchanges i).request.method = .get :=
    List.countP_mono_left fun i _ hi => decide_eq_true (of_decide_eq_true hi).1
  simp only [baselineLatencies_eq, getHitRate, Driver.new, Nat.zero_add] at h
  split at h
  · cases h
  · cases h
    gcongr

/-- **The measurements of all threads**, one thread after another.  No list is read outside its
range. -/
theorem threadMeasurements_eq (driver : Driver) (exchanges : ℕ → ℕ → Exchange)
    (hn : nthreads ≠ 0) (nreq : UInt32) :
    driver.threadMeasurements exchanges nthreads nreq =
      .ok ((List.range nthreads.toNat).flatMap fun i =>
        (driver.baselineLatencies (exchanges i) (nreq / nthreads)).1) := by
  rw [threadMeasurements, if_neg hn]
  refine (foldlM_range_append (fun i hi measurements => ?_) []).trans rfl
  have hget : subscript ((List.range nthreads.toNat).map fun i =>
      (driver.baselineLatencies (exchanges i) (nreq / nthreads)).1) i =
      .ok (driver.baselineLatencies (exchanges i) (nreq / nthreads)).1 := by
    rw [subscript_eq_ok, List.getElem?_map, List.getElem?_range hi]
    rfl
  rw [hget, ok_bind]
  exact foldlM_subscript (length_baselineLatencies _ _ _) measurements

/-- Their number is not that of the requests if the division has a remainder. -/
theorem length_of_threadMeasurements {exchanges : ℕ → ℕ → Exchange} {measurements : List ℚ}
    (hn : nthreads ≠ 0)
    (h : driver.threadMeasurements exchanges nthreads nreq = .ok measurements) :
    measurements.length = nthreads.toNat * (nreq.toNat / nthreads.toNat) := by
  rw [threadMeasurements_eq driver exchanges hn] at h
  cases h
  simp only [List.length_flatMap, length_baselineLatencies, UInt32.toNat_div, List.map_const',
    List.length_range, List.sum_replicate_nat]

theorem whole_of_threadMeasurements {exchanges : ℕ → ℕ → Exchange} {measurements : List ℚ}
    (hn : nthreads ≠ 0)
    (h : driver.threadMeasurements exchanges nthreads nreq = .ok measurements) :
    ∀ x ∈ measurements, ∃ k : ℤ, x = k := by
  rw [threadMeasurements_eq driver exchanges hn] at h
  cases h
  intro x hx
  obtain ⟨i, -, hx⟩ := List.mem_flatMap.1 hx
  rw [baselineLatencies_eq] at hx
  obtain ⟨j, -, rfl⟩ := List.mem_map.1 hx
  exact ⟨_, rfl⟩

end Driver

/-! ### The sum of the latencies -/

theorem truncate_intCast (k : ℤ) : truncate k = k := by
  unfold truncate
  split
  · exact Int.floor_intCast k
  · rw [← Int.cast_neg, Int.floor_intCast, neg_neg]

theorem addLatency_intCast {sum sum' k : ℤ} (h : addLatency sum k = some sum') :
    sum' = sum + k := by
  simp only [addLatency, ← Int.cast_add, truncate_intCast] at h
  split at h <;> cases h
  rfl

theorem foldlM_addLatency {measurements : List ℚ} (hwhole : ∀ x ∈ measurements, ∃ k : ℤ, x = k)
    {sum sum' : ℤ} (h : measurements.foldlM addLatency sum = some sum') :
    (sum' : ℚ) = sum + measurements.sum := by
  induction measurements generalizing sum with
  | nil =>
    cases h
    rw [List.sum_nil, add_zero]
  | cons x measurements ih =>
    rw [List.foldlM_cons] at h
    obtain ⟨sum₁, hsum₁, hrest⟩ := Option.bind_eq_some_iff.1 h
    obtain ⟨k, rfl⟩ := hwhole x List.mem_cons_self
    rw [ih (fun x hx => hwhole x (List.mem_cons_of_mem _ hx)) hrest, addLatency_intCast hsum₁,
      List.sum_cons, Int.cast_add, add_assoc]

theorem latencySum_eq_sum {measurements : List ℚ} (hwhole : ∀ x ∈ measurements, ∃ k : ℤ, x = k)
    {sum : ℤ} (h : latencySum measurements = some sum) : (sum : ℚ) = measurements.sum := by
  rw [foldlM_addLatency hwhole h, Int.cast_zero, zero_add]

/-- **The mean throughput** of several threads is the number of responses in the sum of the times
that all of them took. -/
theorem meanThroughput_eq {measurements : List ℚ} (hwhole : ∀ x ∈ measurements, ∃ k : ℤ, x = k)
    {throughput : ℚ} (h : meanThroughput measurements = some throughput) :
    throughput = 1000000 * measurements.length / measurements.sum := by
  obtain ⟨sum, hsum, h⟩ := Option.bind_eq_some_iff.1 h
  split at h
  · cases h
  · cases h
    rw [latencySum_eq_sum hwhole hsum, div_div_eq_mul_div]

end CrankItUp
