import CrankItUp.Benchmark.Basic
import CrankItUp.Cache.LoadFactor
import CrankItUp.Generator.Known
import CrankItUp.Server.Safety

/-!
# The benchmark and the server

Any number of threads draw requests from one generator, under `rg_mutex`, send them to the server
and wait for the responses.  The server handles one request at a time.

* `Thread` : what a thread is about to do.
* `Bench`, `Bench.step` : the generator, the server's cache and the threads, in any interleaving.
* `Request.Sensible` : what the generator makes the threads send.
* `Answers E x` : the response of the exchange `x` is justified by the exchanges `E` before it.
* `Bench.never_stuck` : nothing dies, no thread waits in vain, and every response is justified.

A thread of `warm_cache` drops the requests that are no `PUT`s.  Any thread may do so here.
-/

namespace CrankItUp

/-- What a thread is about to do. -/
inductive Thread where
  /-- To generate a request. -/
  | idle
  /-- To send the request that it has generated, or to drop it. -/
  | ready (request : Request)
  /-- To wait for the response. -/
  | waiting (request : Request)
  /-- To measure the response. -/
  | answered (request : Request) (response : Response)
  deriving DecidableEq

/-- The request of the thread, if it has not been handled. -/
def Thread.pending : Thread → Option Request
  | .ready request | .waiting request => some request
  | .idle | .answered _ _ => none

/-- The generator, the server and the threads. -/
structure Bench where
  requestGen : RequestGenerator
  cache : Impl LRU
  threads : ℕ → Thread

/-- What happens next, and in which thread. -/
inductive Event where
  | generate (i : ℕ) (d : Draws)
  | drop (i : ℕ)
  | send (i : ℕ)
  | handle (i : ℕ)
  | measure (i : ℕ)

/-- Why an event cannot happen. -/
inductive Stuck where
  /-- The thread is about to do something else. -/
  | disabled
  /-- The benchmark or the server dies. -/
  | died (f : Fault)
  /-- The server sends no response. -/
  | unanswered

namespace Bench

/-- Nothing is known, stored or under way. -/
def start (requestGen : RequestGenerator) (cache : Impl LRU) : Bench :=
  ⟨requestGen, cache, fun _ => .idle⟩

variable (b : Bench)

/-- Move a thread on. -/
def go (i : ℕ) (thread : Thread) : Bench :=
  { b with threads := Function.update b.threads i thread }

/-- One event, with the exchange that it completes on the server, if any. -/
def step : Event → Except Stuck (Option (Request × Response) × Bench)
  | .generate i d =>
    match b.threads i with
    | .idle =>
      match b.requestGen.generateRequest d with
      | .ok (request, requestGen) =>
        .ok (none, { b with requestGen := requestGen }.go i (.ready request))
      | .error f => .error (.died f)
    | _ => .error .disabled
  | .drop i =>
    match b.threads i with
    | .ready request =>
      if request.method = .put then .error .disabled else .ok (none, b.go i .idle)
    | _ => .error .disabled
  | .send i =>
    match b.threads i with
    | .ready request => .ok (none, b.go i (.waiting request))
    | _ => .error .disabled
  | .handle i =>
    match b.threads i with
    | .waiting request =>
      match handleRequest b.cache request with
      | .ok (some response, cache) =>
        .ok (some (request, response), { b with cache := cache }.go i (.answered request response))
      | .ok (none, _) => .error .unanswered
      | .error f => .error (.died f)
    | _ => .error .disabled
  | .measure i =>
    match b.threads i with
    | .answered _ _ => .ok (none, b.go i .idle)
    | _ => .error .disabled

end Bench

/-- The benchmark with the server. -/
def bench : Machine Bench Event (Option (Request × Response)) Stuck := ⟨Bench.step⟩

/-- The exchanges of a run, the last one first. -/
def exchanges (H : List (Event × Option (Request × Response))) : List (Request × Response) :=
  H.filterMap Prod.snd

/-! ### Requests and responses -/

/-- A request that the server is prepared for: the target names what its method needs, and a value
is no longer than 500 bytes, none of them a NUL. -/
def Request.Sensible (req : Request) : Prop :=
  match req.method with
  | .get | .delete => 1 < req.target.length
  | .put => ∃ key valstr, req.Names key valstr ∧ 0 ∉ valstr ∧ valstr.length ≤ 500
  | _ => False

/-- An exchange has stored the value under the key. -/
def Stored (E : List (Request × Response)) (key : KeyType) (v : CStr) : Prop :=
  ∃ x ∈ E, x.1.method = .put ∧ ∃ valstr, x.1.Names key valstr ∧ v = strcpy valstr

/-- A `GET` is answered by a value that has been stored under its key before, or by `notFound`, a
`PUT` by its key and value, and a `DELETE` by the outcome. -/
def Answers (E : List (Request × Response)) (x : Request × Response) : Prop :=
  match x.1.method with
  | .get => x.2 = x.1.notFound ∨
      ∃ v, Stored E x.1.key v ∧ x.2 = x.1.showPair .ok x.1.key v
  | .put => ∃ key valstr, x.1.Names key valstr ∧ x.2 = x.1.showPair .created key (strcpy valstr)
  | .delete => ∃ deleted, x.1.respond (some (.del x.1.key, .del deleted)) = .ok (some x.2)
  | _ => False

/-! ### The size of the table -/

namespace Impl

variable {ε : Type} {s s' a : Impl ε} {key : KeyType} {val : ValType} {size : UInt32} {m : ℤ}
  {k : ℕ}

theorem Loaded.noOverflow (h : s.Loaded m k) (hm : 0 ≤ m) (hlen : s.triples.length < 2 ^ 31) :
    s.NoOverflow := by
  intro hgr
  have hreach := (grows_iff h.factor hm h.doubled.pos).1 hgr
  have hbuckets : s.dict.length ≤ limit m k * s.dict.length :=
    Nat.le_mul_of_pos_left _ (Nat.succ_pos _)
  have hmod := Nat.mod_le s.triples.length (2 ^ 32)
  rw [← h.toNat_eq] at hmod
  omega

variable [Evictor ε] {o : Op} {r : Result}

theorem length_triples_of_entered (ha : (setLoop key val size).Entered s a) :
    a.triples.length ≤ s.triples.length :=
  ha.invariant (P := fun a => a.triples.length ≤ s.triples.length) le_rfl
    fun _ e _ _ hle hb hag => (triples_length_of_calls ⟨e, hb, hag⟩).le.trans hle

theorem Loaded.eachNoOverflow (h : s.Loaded m k) (hm : 0 ≤ m) (hlen : s.triples.length < 2 ^ 31)
    (o : Op) : s.EachActivation (fun a _ _ => a.NoOverflow) o := by
  cases o with
  | set key val size =>
    intro a ha
    have hal : a.Loaded m k := ha.invariant h fun _ _ _ _ ha hb _ =>
      (setBody_cases hb).loaded ha hm
    exact hal.noOverflow hm ((length_triples_of_entered ha).trans_lt hlen)
  | get | del | spaceUsed | reset => trivial

theorem Activation.length_triples_le {e : Exit} (h : s.Activation key val size e s') :
    s'.triples.length ≤ s.triples.length + 1 := by
  refine h.induction (P := fun a => a.triples.length ≤ s.triples.length + 1) ?_ ?_ ?_ ?_
  · exact fun _ _ _ hle => hle
  · exact fun g hg => (grow_frame hg).2.length_eq.le.trans (Nat.le_succ _)
  · intro g hg _ hpos _ _
    rw [(push_triples_perm hpos).length_eq, List.length_cons, (grow_frame hg).2.length_eq]
  · intro g k t g' _ hle _ hd
    have hlen := hd.triples_perm.length_eq
    rw [List.length_cons] at hlen
    omega

theorem Call.length_triples_le (h : s.Call o r s') (ho : o ≠ .reset) :
    s'.triples.length ≤ s.triples.length + 1 := by
  cases h with
  | set hset =>
    refine (set_ends hset).invariant (P := fun a => a.triples.length ≤ s.triples.length + 1)
      (Nat.le_succ _) fun a e a' ha _ _ hb => ?_
    exact (setBody_cases hb).length_triples_le.trans
      (Nat.succ_le_succ (length_triples_of_entered ha))
  | get hget =>
    obtain ⟨-, ⟨-, -, -, rfl⟩ | ⟨_, _, -, -, -, -, rfl⟩⟩ := get_cases hget
    all_goals exact Nat.le_succ _
  | del hdel =>
    obtain ⟨-, ⟨-, rfl, -⟩ | ⟨-, _, hd⟩⟩ := del_cases hdel
    · exact Nat.le_succ _
    · have hlen := hd.triples_perm.length_eq
      rw [List.length_cons] at hlen
      omega
  | spaceUsed => exact Nat.le_succ _
  | reset => exact absurd rfl ho

end Impl

/-! ### The requests of the generator -/

section Sensible

variable {req : Request} {g g' : RequestGenerator} {d : Draws}
  {keyPool : Fin keyPoolSize → PoolKey}

theorem RequestGenerator.Known.sensible (hpool : ∀ i, (keyPool i).1 ≠ [])
    (hg : RequestGenerator.Known keyPool g) (h : g.Generates d req g') : req.Sensible := by
  obtain rfl := hg.pool
  have hkey : g.randomKey d ≠ [] := hpool d.poolIndex
  cases h with
  | getKnown _ _ ht =>
    obtain ⟨i, rfl⟩ := hg.of_pool _ (mem_of_getKeyFromCache ht)
    exact one_lt_length_slash (hpool i)
  | getRandom | deleteKnown | deleteRandom => exact one_lt_length_slash hkey
  | put =>
    have hlen := length_generateValue d
    exact ⟨_, _, ⟨rfl, g.slash_notMem_randomKey d, hkey, List.ne_nil_of_length_pos hlen.1⟩,
      nul_notMem_generateValue d, hlen.2⟩

theorem Request.Sensible.asks (h : req.Sensible) : ∃ o, req.Asks (some o) ∧ o ≠ .reset := by
  unfold Request.Sensible at h
  cases hm : req.method <;> simp only [hm] at h
  · exact ⟨_, .get hm h, nofun⟩
  · obtain ⟨key, valstr, hn, -⟩ := h
    exact ⟨_, .put hm hn, nofun⟩
  · exact ⟨_, .delete hm h, nofun⟩

end Sensible

/-! ### What the server has stored -/

/-- The value of the triple has been stored under its key. -/
def Triple.StoredBy (E : List (Request × Response)) (t : Triple) : Prop :=
  t.Sized ∧ ∀ v, t.val = some v → Stored E t.key v

/-- What is known of the server's cache after the exchanges `E`. -/
structure Holds (m : ℤ) (k : ℕ) (E : List (Request × Response)) (s : Impl LRU) : Prop where
  serving : Serving (Triple.StoredBy E) s
  loaded : s.Loaded m k
  few : s.triples.length ≤ E.length

section Holds

variable {m : ℤ} {k : ℕ} {E : List (Request × Response)} {s s' : Impl LRU} {req : Request}
  {res : Response}

theorem Stored.mono {x : Request × Response} {key : KeyType} {v : CStr} (h : Stored E key v) :
    Stored (x :: E) key v := by
  obtain ⟨y, hy, h⟩ := h
  exact ⟨y, List.mem_cons_of_mem _ hy, h⟩

theorem Triple.StoredBy.mono {x : Request × Response} {t : Triple} (h : t.StoredBy E) :
    t.StoredBy (x :: E) :=
  ⟨h.1, fun v hv => (h.2 v hv).mono⟩

theorem Request.Sensible.stores (h : req.Sensible) {o : Op} (ha : req.Asks (some o)) :
    o.Stores (Triple.StoredBy ((req, res) :: E)) := by
  cases ha with
  | @put key valstr hm hn =>
    simp only [Request.Sensible, hm] at h
    obtain ⟨key', valstr', hn', hnul, hle⟩ := h
    cases (Request.pair_eq_ok.2 hn).symm.trans (Request.pair_eq_ok.2 hn')
    have hpos := List.length_pos_iff.2 hn.val_ne
    refine ⟨⟨_, rfl, ?_, ?_⟩, ?_⟩
    · rwa [strlen_strcpy hnul]
    · rw [strlen_strcpy hnul, storedSize, UInt32.toNat_ofNat', Nat.mod_eq_of_lt (by omega)]
    · rintro _ ⟨⟩
      exact ⟨_, List.mem_cons_self, hm, valstr, hn, rfl⟩
  | get | delete | head | reset => trivial

theorem Holds.handle (h : Holds m k E s) (hm : 0 ≤ m) (hreq : req.Sensible)
    (hres : handleRequest s req = .ok (some res, s')) : Holds m k ((req, res) :: E) s' := by
  obtain ⟨o, ha, ho⟩ := hreq.asks
  have hserving : Serving (Triple.StoredBy ((req, res) :: E)) s :=
    ⟨h.serving.doubled, h.serving.hasEvictor, h.serving.entries.imp fun _ => .mono⟩
  have hcall : ∃ r, s.Call o r s' := by
    obtain ⟨o', p, hop, hr, -⟩ := op_of_handleRequest hres
    cases (Request.op_eq_ok.2 ha).symm.trans hop
    rcases perform_cases hr with ⟨⟨⟩, -⟩ | ⟨_, r, ⟨⟩, -, hst⟩
    exact ⟨r, Impl.step_cases hst⟩
  obtain ⟨r, hc⟩ := hcall
  exact ⟨(hserving.handle (fun _ => hreq.stores) hres).2, hc.loaded h.loaded hm ho,
    (hc.length_triples_le ho).trans (Nat.succ_le_succ h.few)⟩

theorem Holds.answer (h : Holds m k E s) (hm : 0 ≤ m) (hE : E.length < 2 ^ 31)
    (hreq : req.Sensible) : ∃ res s', handleRequest s req = .ok (some res, s') := by
  obtain ⟨o, ha, -⟩ := hreq.asks
  have hfilled : Serving Triple.Filled s :=
    ⟨h.serving.doubled, h.serving.hasEvictor, h.serving.entries.imp fun _ ht => ht.1.filled⟩
  refine hfilled.answer (ha.answerable ?_ ?_) fun o _ =>
    h.loaded.eachNoOverflow hm (h.few.trans_lt hE) o
  · intro hother
    simp [Request.Sensible, hother] at hreq
  · intro _ hlen t hl v hv
    have ht := h.serving.entries.of_lookup hl (Request.key_ne_nil hlen)
    exact (ht.1.not_dvd hv).2

theorem Holds.answers (h : Holds m k E s) (hreq : req.Sensible)
    (hres : handleRequest s req = .ok (some res, s')) : Answers E (req, res) := by
  obtain ⟨o, ha, -⟩ := hreq.asks
  obtain ⟨_, r, hop, hr, hresp⟩ := op_of_handleRequest hres
  cases (Request.op_eq_ok.2 ha).symm.trans hop
  obtain ⟨⟨⟩, -⟩ | ⟨_, r, ⟨⟩, rfl, hst⟩ := perform_cases hr
  have hc := Impl.step_cases hst
  unfold Answers
  cases ha with
  | get hm hlen =>
    simp only [hm]
    obtain ⟨-, ⟨-, hnone⟩ | ⟨t, v, hl, hv, hvalue⟩⟩ := handle_get_cases hm hres
    · exact .inl (Option.some.inj hnone)
    · have ht := h.serving.entries.of_lookup hl (Request.key_ne_nil hlen)
      have hstored := ht.2 v hv
      rw [Impl.lookup_key hl] at hstored
      rcases hvalue with ⟨-, -, hshow⟩ | ⟨hempty, -⟩
      · exact .inr ⟨v, hstored, Option.some.inj hshow⟩
      · exact absurd hempty (ht.1.not_dvd hv).1.ne'
  | @put key valstr hm hn =>
    simp only [hm]
    cases hc with
    | set =>
      cases hresp
      exact ⟨key, valstr, hn, rfl⟩
  | delete hm =>
    simp only [hm]
    cases hc with
    | del => exact ⟨_, hresp⟩
  | head hm | reset hm => simp [Request.Sensible, hm] at hreq

end Holds

/-! ### The system -/

namespace Bench

variable {b b' : Bench} {e : Event} {x : Option (Request × Response)} {m : ℤ} {k : ℕ}
  {E : List (Request × Response)} {keyPool : Fin keyPoolSize → PoolKey}

/-- What an event does. -/
inductive Moves (b : Bench) : Option (Request × Response) → Bench → Prop
  | generates {i : ℕ} {d : Draws} {req : Request} {g : RequestGenerator} :
      b.requestGen.generateRequest d = .ok (req, g) →
      Moves b none ({ b with requestGen := g }.go i (.ready req))
  | drops {i : ℕ} : Moves b none (b.go i .idle)
  | sends {i : ℕ} {req : Request} : b.threads i = .ready req → Moves b none (b.go i (.waiting req))
  | handles {i : ℕ} {req : Request} {res : Response} {c : Impl LRU} :
      b.threads i = .waiting req → handleRequest b.cache req = .ok (some res, c) →
      Moves b (some (req, res)) ({ b with cache := c }.go i (.answered req res))

theorem step_cases (h : b.step e = .ok (x, b')) : b.Moves x b' := by
  cases e <;> simp only [step] at h
  case generate i d =>
    split at h
    · split at h
      · rename_i hgen
        cases h
        exact .generates hgen
      · cases h
    · cases h
  case drop i =>
    split at h
    · split at h
      · cases h
      · cases h
        exact .drops
    · cases h
  case send i =>
    split at h
    · rename_i hready
      cases h
      exact .sends hready
    · cases h
  case handle i =>
    split at h
    · rename_i hwaiting
      split at h
      · rename_i hres
        cases h
        exact .handles hwaiting hres
      · cases h
      · cases h
    · cases h
  case measure i =>
    split at h
    · cases h
      exact .drops
    · cases h

/-- The state of the system after the exchanges `E`. -/
structure Sound (keyPool : Fin keyPoolSize → PoolKey) (m : ℤ) (k : ℕ)
    (E : List (Request × Response)) (b : Bench) : Prop where
  known : RequestGenerator.Known keyPool b.requestGen
  holds : Holds m k E b.cache
  sensible : ∀ i, ∀ req ∈ (b.threads i).pending, req.Sensible

theorem go_self (b : Bench) (i : ℕ) (t : Thread) : (b.go i t).threads i = t :=
  Function.update_self _ _ _

theorem go_of_ne {i j : ℕ} (hj : j ≠ i) (b : Bench) (t : Thread) :
    (b.go i t).threads j = b.threads j :=
  Function.update_of_ne hj _ _

theorem Sound.go {i : ℕ} {t : Thread} (h : b.Sound keyPool m k E)
    (ht : ∀ req ∈ t.pending, req.Sensible) : (b.go i t).Sound keyPool m k E := by
  refine ⟨h.known, h.holds, fun j => ?_⟩
  by_cases hj : j = i
  · rw [hj, go_self]
    exact ht
  · rw [go_of_ne hj]
    exact h.sensible j

/-- Every event is sound. -/
theorem Sound.moves (h : b.Sound keyPool m k E) (hpool : ∀ i, (keyPool i).1 ≠ []) (hm : 0 ≤ m)
    (hmove : b.Moves x b') : b'.Sound keyPool m k (x.toList ++ E) := by
  cases hmove with
  | @generates i d req g hgen =>
    have hg := RequestGenerator.generates_cases hgen
    have hb : Sound keyPool m k E { b with requestGen := g } :=
      ⟨h.known.generates hg, h.holds, h.sensible⟩
    refine hb.go ?_
    rintro _ ⟨⟩
    exact h.known.sensible hpool hg
  | drops => exact h.go nofun
  | @sends i req hready =>
    refine h.go ?_
    rintro _ ⟨⟩
    exact h.sensible i req (by rw [hready]; rfl)
  | @handles i req res c hwaiting hres =>
    have hreq : req.Sensible := h.sensible i req (by rw [hwaiting]; rfl)
    have hb : Sound keyPool m k ((req, res) :: E) { b with cache := c } :=
      ⟨h.known, h.holds.handle hm hreq hres, h.sensible⟩
    exact hb.go nofun

theorem Sound.not_stuck (h : b.Sound keyPool m k E) (hm : 0 ≤ m) (hE : E.length < 2 ^ 31)
    {why : Stuck} (hstep : b.step e = .error why) : why = .disabled := by
  cases e <;> simp only [step] at hstep
  case generate i d =>
    obtain ⟨req, g, hgen⟩ := h.known.exists_generateRequest d
    rw [hgen] at hstep
    split at hstep
    · cases hstep
    · cases hstep
      rfl
  case handle i =>
    split at hstep
    · rename_i req hwaiting
      obtain ⟨res, c, hres⟩ := h.holds.answer hm hE (h.sensible i req (by rw [hwaiting]; rfl))
      rw [hres] at hstep
      cases hstep
    · cases hstep
      rfl
  case drop i =>
    split at hstep
    · split at hstep <;> cases hstep
      rfl
    · cases hstep
      rfl
  case send i | measure i =>
    split at hstep <;> cases hstep
    rfl

variable {mg : MethodGenerator} {maxmem : UInt32} {hasher : KeyType → UInt64}
  {H : List (Event × Option (Request × Response))}

theorem exchanges_cons (e : Event) (x : Option (Request × Response)) :
    exchanges ((e, x) :: H) = x.toList ++ exchanges H := by
  cases x <;> rfl

theorem sound_of_reaches (hpool : ∀ i, (keyPool i).1 ≠ []) (hm : 0 ≤ m)
    (h : bench.Reaches (fun _ _ => True)
      (start (.new mg keyPool) (serverCache maxmem (.finite m k) hasher)) H b) :
    b.Sound keyPool m k (exchanges H) := by
  refine h.invariant (I := fun H b => b.Sound keyPool m k (exchanges H)) ?_ ?_
  · refine ⟨RequestGenerator.known_new, ⟨serving_serverCache _ _ _ _, .new _ _ _, ?_⟩, nofun⟩
    exact (congrArg List.length (Impl.new_triples _ _ _ _)).le
  · intro H b e x b' hb _ hst
    rw [exchanges_cons]
    exact hb.moves hpool hm (step_cases hst)

/-- **Nothing gets stuck.**  Let no key of the pool be empty, and the maximal load factor of the
server not be negative.  In every interleaving of any number of threads with the server, up to
`2 ^ 31` requests, neither the generator nor the server dies, every request that has been sent is
answered, and a `GET` is answered by `notFound` or by a value that some thread has stored under the
same key before. -/
theorem never_stuck (hpool : ∀ i, (keyPool i).1 ≠ []) (hm : 0 ≤ m)
    (h : bench.Reaches (fun _ _ => True)
      (start (.new mg keyPool) (serverCache maxmem (.finite m k) hasher)) H b)
    (hfew : (exchanges H).length < 2 ^ 31) :
    (∀ e why, b.step e = .error why → why = .disabled) ∧
      ∀ e x b', b.step e = .ok (some x, b') → Answers (exchanges H) x := by
  have hb := sound_of_reaches hpool hm h
  refine ⟨fun e why hstep => hb.not_stuck hm hfew hstep, fun e x b' hstep => ?_⟩
  cases step_cases hstep with
  | @handles i req res c hwaiting hres =>
    exact hb.holds.answers (hb.sensible i req (by rw [hwaiting]; rfl)) hres

/-- A thread asks for the key that another one has stored. -/
theorem never_stuck_get : ∃ H b, bench.exec
      (start (.new ⟨3/5, 9/10⟩ fun _ => RequestGenerator.keyA)
        (serverCache 100 (.finite 3 2) firstByte))
      [.generate 0 (RequestGenerator.drawsOf (7/10) 0),
        .generate 1 (RequestGenerator.drawsOf 0 (24/25)), .send 1, .send 0, .handle 0] =
        some (H, b) ∧
    ∃ x b', b.step (.handle 1) = .ok (some x, b') ∧ Answers (exchanges H) x :=
  Machine.exists_exec (D := fun H b => (exchanges H).length < 2 ^ 31 ∧
      (b.step (.handle 1)).toOption.any fun p => p.1.isSome)
    (Machine.exists_exec_of_any (by decide +kernel)) (Machine.guarded_true _ _)
    fun H b h ⟨hfew, hsome⟩ => by
      have hall := never_stuck (fun _ => by decide) (by decide) h hfew
      cases hstep : b.step (.handle 1) with
      | error why =>
        rw [hstep] at hsome
        cases hsome
      | ok p =>
        rw [hstep] at hsome
        obtain ⟨x, hx⟩ := Option.isSome_iff_exists.1 hsome
        obtain ⟨_, b'⟩ := p
        obtain rfl : _ = some x := hx
        exact ⟨x, b', rfl, hall.2 _ _ _ hstep⟩

end Bench

end CrankItUp
