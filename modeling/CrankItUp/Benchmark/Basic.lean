import CrankItUp.Generator.Basic
import CrankItUp.Machine.Loop
import CrankItUp.Number.Double
import Mathlib.Data.List.Sort

/-!
# Measuring the server

The benchmark sends requests from several threads and measures how long each response takes.  From
all measurements it computes the 95th percentile of the latency and the mean throughput, for each
number of threads up to the one that is asked for.

* `Exchange` : a request and what is measured of its response.
* `Driver.baselineLatencies` : the measurements of one thread; `threadMeasurements` : those of all
  threads, collected by index.
* `percentileIndex` : the index of the 95th percentile in the sorted measurements.
* `Driver.baselinePerformance`, `Driver.threadedPerformance` : the percentile and the throughput.
* `benchmarkLoop` : the loop of `main` over the numbers of threads.

The requests and responses are given as a stream for each thread.  The threads update the counters
of the driver without a lock, and what these are afterwards is left open.
-/

namespace CrankItUp

/-- A request, the status of its response, and the time between them. -/
structure Exchange where
  request : Request
  status : Status
  /-- In microseconds; `duration` is a `float` that holds a whole number. -/
  responseTime : ℤ

/-- `xs[i]` of a vector, which must be in range. -/
def subscript {α : Type} (xs : List α) (i : ℕ) : Except Fault α :=
  match xs[i]? with
  | some x => .ok x
  | none => .error .outOfBounds

/-! ### Percentile and throughput -/

/-- `std::round(double(m_copy.size()) * 0.95)`. -/
def percentileIndex (size : ℕ) : UInt32 := UInt32.ofNat (roundHalfAway (size * (19 / 20))).toNat

/-- The measurement at the index of the 95th percentile. -/
def percentileLatency (measurements : List ℚ) : Except Fault ℚ :=
  let sorted := measurements.insertionSort (· ≤ ·)
  subscript sorted (percentileIndex sorted.length).toNat

/-- A number of type `double` as an `int`. -/
def truncate (x : ℚ) : ℤ := if 0 ≤ x then ⌊x⌋ else -⌊-x⌋

/-- Add to a sum of type `int`; none if the result is out of its range. -/
def addLatency (sum : ℤ) (x : ℚ) : Option ℤ :=
  let sum := truncate (sum + x)
  if -2 ^ 31 ≤ sum ∧ sum < 2 ^ 31 then some sum else none

/-- `std::accumulate`, which starts from the `int` 0. -/
def latencySum (measurements : List ℚ) : Option ℤ := measurements.foldlM addLatency 0

/-- Requests per second; none if this is no number. -/
def meanThroughput (measurements : List ℚ) : Option ℚ := do
  let sum ← latencySum measurements
  if measurements.length = 0 ∨ sum = 0 then none
  else
    let averageLatency : ℚ := sum / measurements.length
    return 1000000 / averageLatency

/-- The percentile and the throughput. -/
def performance (measurements : List ℚ) : Except Fault (ℚ × Option ℚ) := do
  let latency ← percentileLatency measurements
  return (latency, meanThroughput measurements)

/-! ### The driver -/

/-- The counters of the driver. -/
structure Driver where
  numRequests : ℕ
  numHits : ℕ

namespace Driver

/-- A new driver. -/
def new : Driver := ⟨0, 0⟩

variable (driver : Driver)

/-- `get_hit_rate`; none if this is no number. -/
def getHitRate : Option ℚ :=
  if driver.numRequests = 0 then none else some (driver.numHits / driver.numRequests)

/-- Count a request; one that is no `GET` is no hit. -/
def count (e : Exchange) : Driver :=
  let driver := { driver with numRequests := driver.numRequests + 1 }
  if e.request.method = .get then
    if ¬ e.status = .notFound then { driver with numHits := driver.numHits + 1 } else driver
  else driver

/-- Send requests and measure. -/
def baselineLatencies (exchanges : ℕ → Exchange) (nreq : UInt32) : List ℚ × Driver :=
  (List.range nreq.toNat).foldl (fun (measurements, driver) i =>
    (measurements ++ [((exchanges i).responseTime : ℚ)], driver.count (exchanges i))) ([], driver)

/-- Measure in this thread; the throughput is multiplied by the number of threads. -/
def baselinePerformance (exchanges : ℕ → Exchange) (nthreads nreq : UInt32) :
    Except Fault ((ℚ × Option ℚ) × Driver) := do
  let (measurements, driver) := driver.baselineLatencies exchanges nreq
  let (latency, throughput) ← performance measurements
  return ((latency, throughput.map (· * nthreads.toNat)), driver)

/-- Start the threads, wait for each, and collect what they have measured. -/
def threadMeasurements (exchanges : ℕ → ℕ → Exchange) (nthreads nreq : UInt32) :
    Except Fault (List ℚ) :=
  if nthreads = 0 then .error .divByZero
  else
    let requestsPerThread := nreq / nthreads
    let futureResults := (List.range nthreads.toNat).map fun i =>
      (driver.baselineLatencies (exchanges i) requestsPerThread).1
    (List.range nthreads.toNat).foldlM (fun measurements i => do
      let threadLatencies ← subscript futureResults i
      (List.range requestsPerThread.toNat).foldlM (fun measurements j => do
        let x ← subscript threadLatencies j
        return measurements ++ [x]) measurements) []

/-- Measure in several threads. -/
def threadedPerformance (exchanges : ℕ → ℕ → Exchange) (nthreads nreq : UInt32) :
    Except Fault (ℚ × Option ℚ) := do
  let measurements ← driver.threadMeasurements exchanges nthreads nreq
  performance measurements

end Driver

/-! ### The program -/

/-- The state of the loop of `main`: the number of threads, and what has been measured. -/
structure Report where
  n : UInt32
  ninetyFifths : List ℚ
  throughputs : List (Option ℚ)

/-- Nothing has been measured; the first measurement is with one thread. -/
def Report.start : Report := ⟨1, [], []⟩

/-- The loop of `main`, which is given the exchanges of all threads for each number of threads. -/
def benchmarkLoop (driver : Driver) (exchanges : ℕ → ℕ → ℕ → Exchange)
    (numThreads numBench : UInt32) : Loop Report Bool Fault where
  body st :=
    if st.n ≤ numThreads then do
      let stats ← driver.threadedPerformance (exchanges st.n.toNat) st.n numBench
      return (true, ⟨st.n + 1, st.ninetyFifths ++ [stats.1], st.throughputs ++ [stats.2]⟩)
    else return (false, st)
  again := id

end CrankItUp
