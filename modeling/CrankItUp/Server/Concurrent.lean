import CrankItUp.Machine.Sections
import CrankItUp.Server.Codec
import Mathlib.Data.Setoid.Basic

/-!
# Requests that are served at the same time

The threads of the server call the cache under `mutex_`, which several readers may hold at once.
A section begins when its thread has taken the lock, and ends when the thread gives it back; the
target has been read before, and the response is written afterwards.

* `Part` : the parts of the cache that the sections share.
* `Work` : how far a section has come.  `get` looks for the key, touches it and takes the length of
  the value; `del` looks for the key, erases the triple, counts it and pays for it.
* `handling` : the sections of the server, which implement `locked`.
* `race_cases` : which sections can race in spite of the lock.
* `DiesWriting s₀ H` : the first response that cannot be written, and what `server` does there.
* `served_concurrently` : where none of these meet, the interleaved server is `server`.
-/

namespace CrankItUp

/-- The parts of the cache. -/
inductive Part where
  | table
  | evictor
  | elements
  | space
  | config
  deriving DecidableEq

instance : Parts (Impl LRU) Part where
  same
    | .table => .ker Impl.dict
    | .evictor => .ker Impl.evictor
    | .elements => .ker Impl.numElements
    | .space => .ker Impl.spaceUsed
    | .config => .ker fun s => (s.maxmem, s.hasher, s.maxLoadFactor)
  ext {s t} h := by
    have htable : s.dict = t.dict := h .table
    have hevictor : s.evictor = t.evictor := h .evictor
    have helements : s.numElements = t.numElements := h .elements
    have hspace : s.spaceUsed = t.spaceUsed := h .space
    have hconfig : (s.maxmem, s.hasher, s.maxLoadFactor) = (t.maxmem, t.hasher, t.maxLoadFactor) :=
      h .config
    cases s
    cases t
    simp_all

/-- How far a thread has come while it holds its lock. -/
inductive Work where
  /-- `set` and `reset`, under the unique lock. -/
  | whole (o : Op)
  /-- `get` looks for the key in a copy of the bucket. -/
  | search (key : KeyType) (valSize : UInt32)
  /-- `get` has found the triple. -/
  | touch (key : KeyType) (valSize : UInt32) (it : Triple)
  /-- `get` has touched the key. -/
  | measure (key : KeyType) (valSize : UInt32) (storedVal : ValType)
  /-- `del` looks for the key in the bucket. -/
  | find (key : KeyType)
  /-- `del` has found the triple at the position `p` of the bucket `i`. -/
  | erase (key : KeyType) (i p : ℕ)
  /-- `del` has erased the triple `it`. -/
  | count (key : KeyType) (i p : ℕ) (it : Triple)
  /-- `del` has counted the triple, and reads its size through the iterator. -/
  | pay (key : KeyType) (i p : ℕ) (it : Triple)
  /-- `space_used`. -/
  | space
  /-- The target is not acceptable. -/
  | failed (f : Fault)
  /-- The call has returned; `none` if there was none. -/
  | done (r : Option (Op × Result))
  deriving DecidableEq

namespace Work

/-- How a request begins. -/
def start (req : Request) : Work :=
  match req.op with
  | .ok (some (.get key valSize)) => .search key valSize
  | .ok (some (.del key)) => .find key
  | .ok (some .spaceUsed) => .space
  | .ok (some o) => .whole o
  | .ok none => .done none
  | .error f => .failed f

/-- One step. -/
def step (s : Impl LRU) : Work → Except Fault (Work × Impl LRU)
  | .whole o => do
    let (r, s) ← s.step o
    return (.done (some (o, r)), s)
  | .search key valSize => do
    let i ← s.bucketIndex key
    match (s.bucket i).find? fun it => it.key = key with
    | some it => return (.touch key valSize it, s)
    | none => return (.done (some (.get key valSize, .get none valSize)), s)
  | .touch key valSize it => return (.measure key valSize it.val, s.touchKey key)
  | .measure key valSize storedVal =>
    match storedVal with
    | some v =>
      return (.done (some (.get key valSize, .get (some v) (UInt32.ofNat (v.strlen + 1)))), s)
    | none => throw .nullStrlen
  | .find key => do
    let i ← s.bucketIndex key
    match (s.bucket i).findIdx? fun it => it.key = key with
    | some p => return (.erase key i p, s)
    | none => return (.done (some (.del key, .del false)), s)
  | .erase key i p =>
    return (.count key i p ((s.bucket i).getD p Triple.default),
      { s with dict := s.dict.set i ((s.bucket i).eraseIdx p) })
  | .count key i p it => return (.pay key i p it, { s with numElements := s.numElements - 1 })
  | .pay key i p it =>
    -- the slot of the erased triple holds the next one, or what is left of the last one
    return (.done (some (.del key, .del true)),
      { s with spaceUsed := s.spaceUsed - ((s.bucket i).getD p it).size })
  | .space => return (.done (some (.spaceUsed, .spaceUsed s.spaceUsed)), s)
  | .failed f => throw f
  | .done r => return (.done r, s)

/-- The call has returned. -/
def finish : Work → Option (Option (Op × Result))
  | .done r => some r
  | _ => none

/-- The parts that a step reads or writes. -/
def uses : Work → Set Part
  | .whole _ => Set.univ
  | .search _ _ | .find _ => {.table, .config}
  | .touch _ _ _ => {.evictor}
  | .erase _ _ _ => {.table}
  | .count _ _ _ _ => {.elements}
  | .pay _ _ _ _ => {.table, .space}
  | .space => {.space}
  | .measure _ _ _ | .failed _ | .done _ => ∅

/-- The parts that a step writes. -/
def writes : Work → Set Part
  | .whole _ => Set.univ
  | .touch _ _ _ => {.evictor}
  | .erase _ _ _ => {.table}
  | .count _ _ _ _ => {.elements}
  | .pay _ _ _ _ => {.space}
  | _ => ∅

end Work

variable {s s' t : Impl LRU} {l l' : Work} {f : Part}

theorem Work.step_frame (h : l.step s = .ok (l', s')) (hf : f ∉ l.writes) : Same f s' s := by
  cases l with
  | whole o => exact absurd (Set.mem_univ f) hf
  | search key n =>
    obtain ⟨i, -, h⟩ := bind_eq_ok.1 h
    split at h <;> cases h <;> exact Same.refl f s
  | find key =>
    obtain ⟨i, -, h⟩ := bind_eq_ok.1 h
    split at h <;> cases h <;> exact Same.refl f s
  | measure key n v =>
    cases v with
    | none => cases h
    | some v => cases h; exact Same.refl f s
  | failed e => cases h
  | space | done => cases h; exact Same.refl f s
  | touch | erase | count | pay =>
    cases h
    cases f <;> first | exact absurd rfl hf | exact rfl

theorem bucketIndex_congr (htable : Same Part.table s t) (hconfig : Same Part.config s t)
    (key : KeyType) : s.bucketIndex key = t.bucketIndex key := by
  have hdict : s.dict = t.dict := htable
  have hhasher : s.hasher = t.hasher := congrArg (fun c => c.2.1) hconfig
  simp only [Impl.bucketIndex, hdict, hhasher]

theorem bucket_congr (htable : Same Part.table s t) (i : ℕ) : s.bucket i = t.bucket i :=
  congrArg (fun dict : List Bucket => dict.getD i []) htable

theorem Work.step_depends (h : ∀ f ∈ l.uses, Same f s t) :
    Agree (fun s' t' => ∀ f ∈ l.writes, Same f s' t') (l.step s) (l.step t) := by
  cases l with
  | whole o =>
    obtain rfl : s = t := Parts.ext fun f => h f (Set.mem_univ f)
    cases (whole o).step s with
    | error e => exact rfl
    | ok p => exact ⟨rfl, fun f _ => Same.refl f p.2⟩
  | search key n =>
    simp only [step, bucketIndex_congr (h .table (.inl rfl)) (h .config (.inr rfl)),
      bucket_congr (h .table (.inl rfl))]
    cases t.bucketIndex key with
    | error e => exact rfl
    | ok i =>
      simp only [ok_bind]
      split <;> exact ⟨rfl, fun f hf => hf.elim⟩
  | find key =>
    simp only [step, bucketIndex_congr (h .table (.inl rfl)) (h .config (.inr rfl)),
      bucket_congr (h .table (.inl rfl))]
    cases t.bucketIndex key with
    | error e => exact rfl
    | ok i =>
      simp only [ok_bind]
      split <;> exact ⟨rfl, fun f hf => hf.elim⟩
  | touch key n it =>
    have hevictor : s.evictor = t.evictor := h .evictor rfl
    refine ⟨rfl, fun f hf => ?_⟩
    obtain rfl : f = .evictor := hf
    exact congrArg (Option.map fun e => Evictor.touchKey e key) hevictor
  | measure key n v =>
    cases v with
    | none => exact rfl
    | some v => exact ⟨rfl, fun f hf => hf.elim⟩
  | erase key i p =>
    have hdict : s.dict = t.dict := h .table rfl
    have hbucket := bucket_congr (h .table rfl) i
    refine ⟨by rw [hbucket], fun f hf => ?_⟩
    obtain rfl : f = .table := hf
    change s.dict.set i _ = t.dict.set i _
    rw [hdict, hbucket]
  | count key i p it =>
    have helements : s.numElements = t.numElements := h .elements rfl
    refine ⟨rfl, fun f hf => ?_⟩
    obtain rfl : f = .elements := hf
    exact congrArg (· - 1) helements
  | pay key i p it =>
    have hspace : s.spaceUsed = t.spaceUsed := h .space (.inr rfl)
    refine ⟨rfl, fun f hf => ?_⟩
    obtain rfl : f = .space := hf
    change s.spaceUsed - ((s.bucket i).getD p it).size = t.spaceUsed - ((t.bucket i).getD p it).size
    rw [hspace, bucket_congr (h .table (.inl rfl))]
  | space =>
    have hspace : s.spaceUsed = t.spaceUsed := h .space rfl
    exact ⟨by rw [hspace], fun f hf => hf.elim⟩
  | failed e => exact rfl
  | done r => exact ⟨rfl, fun f hf => hf.elim⟩

/-- The sections of the server. -/
def handling : Code (Impl LRU) Work Request (Option (Op × Result)) Fault Part where
  start := Work.start
  step s l := l.step s
  finish := Work.finish
  uses := Work.uses
  writes := Work.writes
  writes_subset l := by
    cases l with
    | pay => exact Set.singleton_subset_iff.2 (.inr rfl)
    | whole | touch | erase | count => exact subset_rfl
    | search | measure | find | space | failed | done => exact Set.empty_subset _
  frame h f hf := Work.step_frame h hf
  depends h := Work.step_depends h

/-- What the server does under its lock: the call that the request asks for. -/
def locked : Machine (Impl LRU) Request (Option (Op × Result)) Fault where
  step s req := do
    let o ← req.op
    s.perform o

theorem handleRequest_eq_locked (s : Impl LRU) (req : Request) : handleRequest s req = (do
    let (r, s') ← locked.step s req
    let res ← req.respond r
    return (res, s')) := by
  rw [handleRequest_eq, locked, bind_assoc]

/-! ### A section on its own -/

/-- The triple that `del` erases is the first one with the key, and the size that it pays for is
read from the slot of that triple. -/
theorem eraseKey_eq (key : KeyType) (b : Bucket) :
    eraseKey key b = (b.findIdx? fun it => it.key = key).map fun p =>
      (((b.eraseIdx p).getD p (b.getD p Triple.default)).size, b.eraseIdx p) := by
  induction b with
  | nil => rfl
  | cons it rest ih =>
    by_cases hkey : it.key = key
    · cases rest <;> simp [eraseKey, hkey, List.findIdx?_cons]
    · rw [eraseKey, if_neg hkey, ih, List.findIdx?_cons, Option.map_map,
        if_neg (by simpa using hkey), Option.map_map]
      rfl

theorem run_search (s : Impl LRU) (key : KeyType) (n : UInt32) :
    handling.run 4 s (.search key n) = some (s.perform (some (.get key n))) := by
  cases hi : s.bucketIndex key with
  | error e =>
    rw [Code.run_error rfl (e := e) (by simp only [handling, Work.step, hi]; rfl)]
    simp only [Impl.perform, Impl.step, Impl.get, hi]
    rfl
  | ok i =>
    cases hfind : (s.bucket i).find? fun it => it.key = key with
    | none =>
      rw [Code.run_step rfl (by simp only [handling, Work.step, hi, hfind, ok_bind]; rfl),
        Code.run_finish rfl]
      simp only [Impl.perform, Impl.step, Impl.get, hi, hfind, ok_bind]
      rfl
    | some it =>
      rw [Code.run_step rfl (by simp only [handling, Work.step, hi, hfind, ok_bind]; rfl),
        Code.run_step rfl rfl]
      simp only [Impl.perform, Impl.step, Impl.get, hi, hfind, ok_bind]
      cases it.val <;> rfl

theorem run_find (s : Impl LRU) (key : KeyType) :
    handling.run 4 s (.find key) = some (s.perform (some (.del key))) := by
  cases hi : s.bucketIndex key with
  | error e =>
    rw [Code.run_error rfl (e := e) (by simp only [handling, Work.step, hi]; rfl)]
    simp only [Impl.perform, Impl.step, Impl.del, hi]
    rfl
  | ok i =>
    have hlen : i < s.dict.length := by
      obtain ⟨hpos, rfl⟩ := Impl.bucketIndex_eq_ok.1 hi
      exact Impl.place_lt hpos key
    cases hfind : (s.bucket i).findIdx? fun it => it.key = key with
    | none =>
      rw [Code.run_step rfl (by simp only [handling, Work.step, hi, hfind, ok_bind]; rfl),
        Code.run_finish rfl]
      simp only [Impl.perform, Impl.step, Impl.del, hi, eraseKey_eq, hfind, ok_bind]
      rfl
    | some p =>
      rw [Code.run_step rfl (by simp only [handling, Work.step, hi, hfind, ok_bind]; rfl),
        Code.run_step rfl rfl, Code.run_step rfl rfl, Code.run_step rfl rfl, Code.run_finish rfl]
      simp only [Impl.perform, Impl.step, Impl.del, hi, eraseKey_eq, hfind, ok_bind]
      simp only [Option.map_some, Impl.bucket, getD_set_self hlen]
      rfl

theorem run_whole (s : Impl LRU) (o : Op) :
    handling.run 4 s (.whole o) = some (s.perform (some o)) := by
  cases hst : s.step o with
  | error e =>
    rw [Code.run_error rfl (e := e) (by simp only [handling, Work.step, hst]; rfl)]
    simp only [Impl.perform, hst]
    rfl
  | ok p =>
    rw [Code.run_step rfl (by simp only [handling, Work.step, hst, ok_bind]; rfl),
      Code.run_finish rfl]
    simp only [Impl.perform, hst]
    rfl

/-- **A section that nothing interferes with is the call that the request asks for.** -/
theorem handling_implements : handling.Implements locked := by
  refine Code.implements_of_run fun s req => ⟨4, ?_⟩
  change handling.run 4 s (Work.start req) = some (req.op >>= s.perform)
  unfold Work.start
  cases req.op with
  | error e => exact Code.run_error rfl rfl
  | ok o =>
    rw [ok_bind]
    cases o with
    | none => exact Code.run_finish rfl
    | some o =>
      cases o with
      | set key val size => exact run_whole s _
      | get key n => exact run_search s key n
      | del key => exact run_find s key
      | spaceUsed =>
        rw [Code.run_step rfl rfl, Code.run_finish rfl]
        rfl
      | reset => exact run_whole s _

/-! ### Races -/

/-- Two requests whose locks cannot be held at the same time. -/
def Request.Conflict (req req' : Request) : Prop :=
  req.lock = some .unique ∧ req'.lock ≠ none ∨ req.lock ≠ none ∧ req'.lock = some .unique

theorem Request.Conflict.symm {req req' : Request} (h : req.Conflict req') : req'.Conflict req :=
  (Or.symm h).imp And.symm And.symm

/-- A `get` that has touched its key. -/
def Work.Hit : Work → Prop
  | .measure _ _ _ | .done (some (.get _ _, .get (some _) _)) => True
  | _ => False

/-- A `del` that has erased its key. -/
def Work.Deletes : Work → Prop
  | .count _ _ _ _ | .pay _ _ _ _ | .done (some (.del _, .del true)) => True
  | _ => False

/-- The lock that is held for the next step; none is needed when nothing is left to do. -/
def Work.lock : Work → Option Lock
  | .whole _ => some .unique
  | .failed _ | .done _ => none
  | _ => some .shared

/-- What a section has used and written. -/
structure Tracked (fl : Flight Work Request Part) : Prop where
  lock : fl.loc.lock = none ∨ fl.loc.lock = fl.call.lock
  used : ∀ f ∈ fl.used, fl.call.lock ≠ none
  subset : fl.written ⊆ fl.used
  evictor : .evictor ∈ fl.used → fl.call.lock = some .unique ∨ fl.loc.Hit
  written : ∀ f ∈ fl.written, fl.call.lock = some .unique ∨ f = .evictor ∨ fl.loc.Deletes

theorem Work.start_lock (req : Request) :
    (start req).lock = none ∨ (start req).lock = req.lock := by
  unfold start
  cases hop : req.op with
  | error e => exact .inl rfl
  | ok o =>
    cases Request.op_eq_ok.1 hop with
    | get hm | put hm | delete hm | head hm => right; simp [Request.lock, hm, Work.lock, putOp]
    | reset hm _ hkey =>
      have hlock : req.lock = some .unique := by
        simp only [Request.lock, hm]
        exact if_pos hkey
      exact .inr hlock.symm
    | wrongTarget | other => exact .inl rfl

/-- A step keeps what the section has done, and does not need another lock. -/
theorem Work.step_cases (h : l.step s = .ok (l', s')) :
    (l'.lock = none ∨ l'.lock = l.lock) ∧ (l.Hit → l'.Hit) ∧ (l.Deletes → l'.Deletes) ∧
      (l.lock = none → l.uses = ∅) ∧ (.evictor ∈ l.uses → l.lock = some .unique ∨ l'.Hit) ∧
      ∀ f ∈ l.writes, l.lock = some .unique ∨ f = .evictor ∨ l'.Deletes := by
  cases l with
  | whole o =>
    obtain ⟨p, -, h⟩ := bind_eq_ok.1 h
    cases h
    exact ⟨.inl rfl, False.elim, False.elim, nofun, fun _ => .inl rfl, fun _ _ => .inl rfl⟩
  | search key n =>
    obtain ⟨i, -, h⟩ := bind_eq_ok.1 h
    split at h <;> cases h <;> simp [Work.lock, Hit, Deletes, uses, writes]
  | find key =>
    obtain ⟨i, -, h⟩ := bind_eq_ok.1 h
    split at h <;> cases h <;> simp [Work.lock, Hit, Deletes, uses, writes]
  | measure key n v =>
    cases v with
    | none => cases h
    | some v => cases h; simp [Work.lock, Hit, Deletes, uses, writes]
  | failed e => cases h
  | touch | erase | count | pay | space | done =>
    cases h
    simp [Work.lock, Hit, Deletes, uses, writes]

theorem tracked_begin (req : Request) : Tracked (handling.begin req) where
  lock := Work.start_lock req
  used _ hf := hf.elim
  subset := subset_rfl
  evictor hf := hf.elim
  written _ hf := hf.elim

theorem Tracked.proceed {fl : Flight Work Request Part} (h : Tracked fl)
    (hst : fl.loc.step s = .ok (l, s')) : Tracked (handling.proceed fl l) := by
  obtain ⟨hlock, hhit, hdel, hnone, hevictor, hwrites⟩ := Work.step_cases hst
  have hl : fl.loc.lock = some .unique → fl.call.lock = some .unique := fun hu => by
    rcases h.lock with hn | hs
    · cases hu.symm.trans hn
    · rw [← hs, hu]
  refine ⟨?_, fun f hf => ?_, ?_, fun hf => ?_, fun f hf => ?_⟩
  · rcases hlock with hn | hs
    · exact .inl hn
    · exact h.lock.imp hs.trans hs.trans
  · rcases hf with hf | hf
    · exact h.used f hf
    · rcases h.lock with hn | hs
      · rw [show handling.uses fl.loc = ∅ from hnone hn] at hf
        exact hf.elim
      · intro hcall
        rw [show handling.uses fl.loc = ∅ from hnone (hs.trans hcall)] at hf
        exact hf
  · exact Set.union_subset_union h.subset (handling.writes_subset fl.loc)
  · rcases hf with hf | hf
    · exact (h.evictor hf).imp_right hhit
    · exact (hevictor hf).imp_left hl
  · rcases hf with hf | hf
    · exact (h.written f hf).imp_right (Or.imp_right hdel)
    · exact (hwrites f hf).imp_left hl

/-- The responses that are written after the calls `H` are those of the requests `Hs`. -/
def Responds (H : List (Request × Option (Op × Result)))
    (Hs : List (Request × Option Response)) : Prop :=
  List.Forall₂ (fun x y => x.1 = y.1 ∧ x.1.respond x.2 = .ok y.2) H Hs

/-- One of the responses cannot be written, and the server dies of it: all before it can, and lead
to a state in which the request ends in the same fault. -/
def DiesWriting (s₀ : Impl LRU) (H : List (Request × Option (Op × Result))) : Prop :=
  ∃ H₁ req r H₀ σ Hs e, H = H₁ ++ (req, r) :: H₀ ∧ server.Reaches (fun _ _ => True) s₀ Hs σ ∧
    Responds H₀ Hs ∧ req.respond r = .error e ∧ handleRequest σ req = .error e

/-- Calls made under the lock are requests of the server, up to the first response that cannot be
written. -/
theorem server_reaches {s₀ : Impl LRU} {H : List (Request × Option (Op × Result))}
    (h : locked.Reaches (fun _ _ => True) s₀ H s) :
    (∃ Hs, server.Reaches (fun _ _ => True) s₀ Hs s ∧ Responds H Hs) ∨ DiesWriting s₀ H := by
  induction h with
  | start => exact .inl ⟨[], .start, .nil⟩
  | @call H s s' req r _ _ hst ih =>
    have hcall : handleRequest s req = (req.respond r).map fun res => (res, s') := by
      rw [handleRequest_eq_locked, hst, ok_bind]
      change (req.respond r >>= fun res => pure (res, s')) = _
      cases req.respond r <;> rfl
    rcases ih with ⟨Hs, hHs, hforall⟩ | ⟨H₁, req', r', H₀, hdies⟩
    · cases hr : req.respond r with
      | ok res =>
        rw [hr] at hcall
        exact .inl ⟨(req, res) :: Hs, .call hHs trivial hcall, .cons ⟨rfl, hr⟩ hforall⟩
      | error e =>
        rw [hr] at hcall
        exact .inr ⟨[], req, r, H, s, Hs, e, rfl, hHs, hforall, hr, hcall⟩
    · obtain ⟨σ, Hs, e, rfl, hrest⟩ := hdies
      exact .inr ⟨(req, r) :: H₁, req', r', H₀, σ, Hs, e, rfl, hrest⟩

section Threads

variable {ι : Type*} [DecidableEq ι] {ok : Conc ι (Impl LRU) Work Request Part → Prop}
  {s₀ : Impl LRU} {H : List (ι × Request × Option (Op × Result))}
  {st : Conc ι (Impl LRU) Work Request Part} {i j : ι} {fl fl' : Flight Work Request Part}

theorem Tracked.of_exec (h : handling.Exec (Code.Excludes Request.Conflict) ok s₀ H st)
    (hi : st.flight i = some fl) : Tracked fl :=
  h.flight_invariant tracked_begin (fun _ _ _ _ hfl hst => hfl.proceed hst) hi

/-- **The races that the lock leaves.**  When one section has written what another one has used,
both hold the shared lock; and either both are a `GET` that has touched its key, or the first is a
`DELETE` that has erased its key. -/
theorem race_cases (h : handling.Exec (Code.Excludes Request.Conflict) ok s₀ H st) (hij : i ≠ j)
    (hi : st.flight i = some fl) (hj : st.flight j = some fl') (hf : f ∈ fl.written)
    (hf' : f ∈ fl'.used) :
    fl.call.lock = some .shared ∧ fl'.call.lock = some .shared ∧
      (fl.loc.Hit ∧ fl'.loc.Hit ∨ fl.loc.Deletes) := by
  have htr := Tracked.of_exec h hi
  have htr' := Tracked.of_exec h hj
  have hconf := h.compatible (fun _ _ => Request.Conflict.symm) hij hi hj
  have hlock := htr.used f (htr.subset hf)
  have hlock' := htr'.used f hf'
  have hnu : fl.call.lock ≠ some .unique := fun hu => hconf (.inl ⟨hu, hlock'⟩)
  have hnu' : fl'.call.lock ≠ some .unique := fun hu => hconf (.inr ⟨hlock, hu⟩)
  have hshared : ∀ {o : Option Lock}, o ≠ none → o ≠ some .unique → o = some .shared := by
    rintro (_ | _ | _) h₁ h₂
    exacts [absurd rfl h₁, rfl, absurd rfl h₂]
  refine ⟨hshared hlock hnu, hshared hlock' hnu', ?_⟩
  rcases (htr.written f hf).resolve_left hnu with rfl | hdel
  · exact .inl ⟨(htr.evictor (htr.subset hf)).resolve_left hnu,
      (htr'.evictor hf').resolve_left hnu'⟩
  · exact .inr hdel

/-- No two threads have touched keys of a `GET` at the same time, and while one has erased a key,
no other one holds the shared lock. -/
def Calm (st : Conc ι (Impl LRU) Work Request Part) : Prop :=
  ∀ i j fl fl', i ≠ j → st.flight i = some fl → st.flight j = some fl' →
    fl'.call.lock = some .shared → ¬ (fl.loc.Hit ∧ fl'.loc.Hit) ∧ ¬ fl.loc.Deletes

theorem noRace_of_calm (h : handling.Exec (Code.Excludes Request.Conflict) Calm s₀ H st) :
    handling.Exec (Code.Excludes Request.Conflict) Code.NoRace s₀ H st := by
  refine h.imp fun h hcalm i j fl fl' hij hi hj f hf hf' => ?_
  obtain ⟨-, hshared, hrace⟩ := race_cases h hij hi hj hf hf'
  obtain ⟨hhit, hdel⟩ := hcalm i j fl fl' hij hi hj hshared
  exact hrace.elim hhit hdel

omit [DecidableEq ι] in
theorem calm_idle (s₀ : Impl LRU) : Calm (.idle s₀ : Conc ι (Impl LRU) Work Request Part) :=
  fun _ _ _ _ _ hi => by cases hi

/-- What a step that ends in a fault uses has not been written by an unfinished section. -/
theorem not_written_of_error (h : handling.Exec (Code.Excludes Request.Conflict) Calm s₀ H st)
    (hij : i ≠ j) (hi : st.flight i = some fl) (hj : st.flight j = some fl') {e : Fault}
    (hst : fl.loc.step st.shared = .error e) (hf : f ∈ fl.loc.uses) : f ∉ fl'.written := by
  intro hw
  have htr := Tracked.of_exec h hi
  have htr' := Tracked.of_exec h hj
  have hconf := h.compatible (fun _ _ => Request.Conflict.symm) hij hi hj
  have hlock' := htr'.used f (htr'.subset hw)
  -- the section holds the shared lock
  have hshared : fl.loc.lock = some .shared ∧ f ≠ .evictor := by
    revert hst hf
    cases hloc : fl.loc with
    | whole o =>
      intro _ _
      have hu : fl.call.lock = some .unique := by
        have := htr.lock
        rw [hloc] at this
        simpa [Work.lock, eq_comm] using this
      exact absurd (.inl ⟨hu, hlock'⟩) hconf
    | search | find =>
      rintro - (rfl | rfl) <;> exact ⟨rfl, nofun⟩
    | measure | failed => exact fun _ hf => hf.elim
    | touch | erase | count | pay | space | done => exact fun hst => by cases hst
  have hcall : fl.call.lock = some .shared := by
    rcases htr.lock with hn | hs
    · cases hshared.1.symm.trans hn
    · rw [← hs, hshared.1]
  have hnu : fl'.call.lock ≠ some .unique := fun hu => hconf (.inr ⟨by simp [hcall], hu⟩)
  exact (h.meets (calm_idle s₀) j i fl' fl hij.symm hj hi hcall).2
    (((htr'.written f hw).resolve_left hnu).resolve_left hshared.2)

theorem handleRequest_error (h : handling.Exec (Code.Excludes Request.Conflict) Calm s₀ H st)
    {σ : Impl LRU} (hlinked : handling.Linked σ st) (hi : st.flight i = some fl) {e : Fault}
    (hst : fl.loc.step st.shared = .error e) : handleRequest σ fl.call = .error e := by
  have hno : fl.loc.finish = none := by
    revert hst
    cases fl.loc with
    | done r => exact fun hst => by cases hst
    | _ => exact fun _ => rfl
  have herror : locked.step σ fl.call = .error e :=
    hlinked.error handling_implements hi hno hst fun j fl' hij hj f hf =>
      not_written_of_error h hij hi hj hst hf
  rw [handleRequest_eq_locked, herror]
  rfl

/-- **The server with several threads.**  As long as the sections that can race do not meet, every
interleaved run of the server is a run of `server`: the requests are served one after another, in
the order in which they give back the lock, and every one gets the response it would get then.
When no request is being served, the cache is in the state that this run leaves; and a request
that dies would die there, too.  If a response cannot be written, which is found out when the lock
has been given back, then `server` dies of the first such request. -/
theorem served_concurrently (h : handling.Exec (Code.Excludes Request.Conflict) Calm s₀ H st) :
    (∃ σ Hs, server.Reaches (fun _ _ => True) s₀ Hs σ ∧ Responds (H.map Prod.snd) Hs ∧
      ((∀ i, st.flight i = none) → st.shared = σ) ∧
      ∀ i fl e, st.flight i = some fl → fl.loc.step st.shared = .error e →
        handleRequest σ fl.call = .error e) ∨ DiesWriting s₀ (H.map Prod.snd) := by
  obtain ⟨σ, hσ, hlinked, -⟩ := (noRace_of_calm h).serializable handling_implements
  refine (server_reaches hσ).imp_left ?_
  rintro ⟨Hs, hHs, hforall⟩
  exact ⟨σ, Hs, hHs, hforall, hlinked.eq_of_idle,
    fun i fl e hi hst => handleRequest_error h hlinked hi hst⟩

omit [DecidableEq ι] in
theorem calm_of_single (k : ι) (hk : ∀ i fl, st.flight i = some fl →
    ¬ fl.loc.Deletes ∧ (fl.loc.Hit → i = k)) : Calm st :=
  fun _ _ _ _ hij hi hj _ =>
    ⟨fun h => hij (((hk _ _ hi).2 h.1).trans ((hk _ _ hj).2 h.2).symm), (hk _ _ hi).1⟩

end Threads

/-- The cache after `PUT /a/x`. -/
def oneKey : Impl LRU :=
  ((handleRequest (serverCache 100 (.finite 3 2) firstByte) ⟨11, .put, str "/a/x"⟩).toOption.map
    Prod.snd).getD (serverCache 100 (.finite 3 2) firstByte)

/-- A `GET` that is interleaved with a `HEAD`. -/
theorem served_concurrently_two : ∃ H st,
    handling.Exec (Code.Excludes Request.Conflict) Calm oneKey H st ∧
    H.map (fun x => (x.1, x.2.1.method)) = [(false, .get), (true, .head)] ∧
    ∃ σ Hs, server.Reaches (fun _ _ => True) oneKey Hs σ ∧ Responds (H.map Prod.snd) Hs ∧
      st.shared = σ := by
  have hrun : ∃ H st, handling.Exec (Code.Excludes Request.Conflict) Calm oneKey H st ∧
      H.map (fun x => (x.1, x.2.1.method)) = [(false, .get), (true, .head)] ∧
      (∀ i, st.flight i = none) ∧ ∀ x ∈ H.map Prod.snd, ∃ res, x.1.respond x.2 = .ok res := by
    -- both requests read, and the `GET` is alone in what it touches
    have hcalm : ∀ {st : Conc Bool (Impl LRU) Work Request Part},
        (∀ i fl, st.flight i = some fl → ¬ fl.loc.Deletes ∧ (fl.loc.Hit → i = false)) → Calm st :=
      fun h => calm_of_single false h
    have h₀ : handling.Exec (Code.Excludes Request.Conflict) Calm oneKey []
        (.idle oneKey : Conc Bool (Impl LRU) Work Request Part) := .start
    refine ⟨_, _, (((((((h₀.enter false ⟨11, .get, str "/a"⟩ rfl ?_ ?_).enter true
      ⟨11, .head, str "/b"⟩ rfl ?_ ?_).work false rfl rfl rfl ?_).work true rfl rfl rfl ?_).work
      false rfl rfl rfl ?_).leave true rfl rfl ?_).work false rfl rfl rfl ?_).leave
      false rfl rfl ?_, rfl, ?_, ?_⟩
    any_goals
      refine hcalm fun i fl hi => ?_
      cases i <;> cases hi <;> exact ⟨id, fun h => by first | rfl | exact h.elim⟩
    · exact fun i fl hi => by cases hi
    · rintro (_ | _) fl hi
      · cases hi
        simp [Request.Conflict, Request.lock, Code.begin]
      · cases hi
    · rintro (_ | _) <;> rfl
    · simp only [List.map_cons, List.map_nil, List.mem_cons, List.not_mem_nil, or_false,
        forall_eq_or_imp, forall_eq]
      exact ⟨⟨_, rfl⟩, ⟨_, rfl⟩⟩
  obtain ⟨H, st, h, hH, hidle, hres⟩ := hrun
  rcases served_concurrently h with ⟨σ, Hs, hHs, hforall, hshared, -⟩ | hdies
  · exact ⟨H, st, h, hH, σ, Hs, hHs, hforall, hshared hidle⟩
  · obtain ⟨H₁, req, r, H₀, σ, Hs, e, heq, -, -, hr, -⟩ := hdies
    obtain ⟨res, hok⟩ := hres (req, r) (by simp [heq])
    cases hok.symm.trans hr

end CrankItUp
