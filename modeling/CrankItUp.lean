import CrankItUp.Machine.Basic
import CrankItUp.Machine.Loop
import CrankItUp.Machine.Ghost
import CrankItUp.Machine.Omission
import CrankItUp.Machine.Potential
import CrankItUp.Machine.RecencyList
import CrankItUp.Machine.Paging
import CrankItUp.Machine.Sections
import CrankItUp.Stream.Basic
import CrankItUp.Stream.Decimal
import CrankItUp.Evictor.Basic
import CrankItUp.Evictor.Lru
import CrankItUp.Evictor.LruHistory
import CrankItUp.Cache.Basic
import CrankItUp.Cache.Table
import CrankItUp.Cache.Spec
import CrankItUp.Cache.Guard
import CrankItUp.Cache.Accounting
import CrankItUp.Cache.Conservation
import CrankItUp.Cache.Doubling
import CrankItUp.Cache.LoadFactor
import CrankItUp.Cache.Placement
import CrankItUp.Cache.Rehash
import CrankItUp.Cache.History
import CrankItUp.Cache.Origin
import CrankItUp.Cache.Recency
import CrankItUp.Cache.Placeholders
import CrankItUp.Cache.Count
import CrankItUp.Cache.Reclaim
import CrankItUp.Cache.Transparent
import CrankItUp.Cache.Amortized
import CrankItUp.Store.Basic
import CrankItUp.Store.Refine
import CrankItUp.Store.Observe
import CrankItUp.Store.Admission
import CrankItUp.Store.Overwrite
import CrankItUp.Store.Inclusion
import CrankItUp.Store.Capacity
import CrankItUp.Server.Basic
import CrankItUp.Server.SharedLock
import CrankItUp.Server.Codec
import CrankItUp.Server.Safety
import CrankItUp.Server.Acknowledge
import CrankItUp.Server.Concurrent
import CrankItUp.Server.Session
import CrankItUp.Client.Basic
import CrankItUp.Client.Target
import CrankItUp.Client.Body
import CrankItUp.Client.Remote
import CrankItUp.Generator.Basic
import CrankItUp.Generator.Known
import CrankItUp.Generator.WarmUp
import CrankItUp.Number.Double
import CrankItUp.Benchmark.Basic
import CrankItUp.Benchmark.Measurements
import CrankItUp.Benchmark.Percentile
import CrankItUp.Benchmark.Program
import CrankItUp.Benchmark.System
import CrankItUp.Benchmark.Hits
