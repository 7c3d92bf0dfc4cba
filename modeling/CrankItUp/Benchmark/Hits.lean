import CrankItUp.Generator.Known
import CrankItUp.Server.Safety
import CrankItUp.Store.Capacity

/-!
# Hits

The generator draws most `GET`s from the keys that it believes to be stored.  A single thread, whose
requests are handled in the order in which they are generated, is right about them under the
conditions that are collected here, and then each of these `GET`s is a hit.

* `drive` : the loop of one thread, with the server.
* `benchmarkMemory` : as much memory as all values of the benchmark can take, and one more.
* `Expected` : the deletion forgets the key that it deletes, and the call of the cache is plain.
* `known_iff_stored` : in a run of expected draws the known keys are those that are stored.
-/

namespace CrankItUp

/-- One thread generates a request, and has it handled before it generates the next one. -/
def drive : Machine (RequestGenerator × Impl LRU) Draws (Request × Option Response) Fault where
  step p d := do
    let (request, requestGen) ← p.1.generateRequest d
    let (response, cache) ← handleRequest p.2 request
    return ((request, response), (requestGen, cache))

/-- A value and its NUL take at most 501 bytes, and there is one for each key of the pool. -/
def benchmarkMemory : ℕ := (keyPoolSize + 1) * 501

/-- The generator forgets the key that it deletes, and no other; growth hides nothing from the call
of the cache, and its deletions free what they subtract. -/
def Expected (p : RequestGenerator × Impl LRU) (d : Draws) : Prop :=
  p.1.Matched d ∧
    match p.1.generateRequest d with
    | .ok (req, _) => req.Calls Impl.Plain p.2
    | .error _ => True

instance (p : RequestGenerator × Impl LRU) (d : Draws) : Decidable (Expected p d) := by
  unfold Expected
  split <;> infer_instance

/-- The keys of the pool. -/
def poolKeys (keyPool : Fin keyPoolSize → PoolKey) : List KeyType :=
  List.ofFn fun i => (keyPool i).1

/-- The requests that have been generated. -/
def generatedRequests (H : List (Draws × (Request × Option Response))) : List (Draws × Request) :=
  H.map fun x => (x.1, x.2.1)

variable {keyPool : Fin keyPoolSize → PoolKey} {g g' : RequestGenerator} {s s' : Impl LRU}
  {d : Draws} {req : Request} {res : Option Response} {mg : MethodGenerator}

theorem drive_step {x : Request × Option Response} {p : RequestGenerator × Impl LRU} :
    drive.step (g, s) d = .ok (x, p) ↔ g.generateRequest d = .ok (x.1, p.1) ∧
      handleRequest s x.1 = .ok (x.2, p.2) := by
  simp only [drive, bind_eq_ok]
  constructor
  · rintro ⟨⟨req, g'⟩, hreq, ⟨res, s'⟩, hres, h⟩
    cases h
    exact ⟨hreq, hres⟩
  · rintro ⟨hreq, hres⟩
    exact ⟨_, hreq, _, hres, rfl⟩

theorem mem_poolKeys (i : Fin keyPoolSize) : (keyPool i).1 ∈ poolKeys keyPool :=
  List.mem_ofFn.2 ⟨i, rfl⟩

theorem RequestGenerator.Known.asks (hpool : ∀ i, (keyPool i).1 ≠ [])
    (hg : RequestGenerator.Known keyPool g) (h : g.Generates d req g') :
    ∃ o, req.Asks (some o) ∧ o.Modest (poolKeys keyPool) 501 ∧ o.Stores Triple.Sized := by
  obtain rfl := hg.pool
  have hkey : g.randomKey d ≠ [] := hpool d.poolIndex
  cases h with
  | getKnown _ _ ht =>
    obtain ⟨i, rfl⟩ := hg.of_pool _ (mem_of_getKeyFromCache ht)
    exact ⟨_, .get rfl (one_lt_length_slash (hpool i)), trivial, trivial⟩
  | getRandom => exact ⟨_, .get rfl (one_lt_length_slash hkey), trivial, trivial⟩
  | put =>
    have hlen := length_generateValue d
    have hnul := nul_notMem_generateValue d
    have hsize : (storedSize (generateValue d)).toNat = (generateValue d).length + 1 := by
      rw [storedSize, UInt32.toNat_ofNat', Nat.mod_eq_of_lt (by omega)]
    refine ⟨_, .put rfl ⟨rfl, g.slash_notMem_randomKey d, hkey,
      List.ne_nil_of_length_pos hlen.1⟩, ⟨mem_poolKeys d.poolIndex, ?_, Option.some_ne_none _⟩,
      _, rfl, ?_, ?_⟩
    · dsimp only
      omega
    · rw [strlen_strcpy hnul]
      exact hlen.1
    · rw [strlen_strcpy hnul]
      exact hsize
  | deleteKnown | deleteRandom =>
    exact ⟨_, .delete rfl (one_lt_length_slash hkey), trivial, trivial⟩

theorem RequestGenerator.Generates.lastEntry_iff {o : Op} {r : Result} {k : KeyType}
    {L : List (Op × Result)} {H : List (Draws × Request)} (h : g.Generates d req g')
    (hkey : g.randomKey d ≠ []) (ha : req.Asks (some o)) (hL : lastEntry k L ≠ none ↔ LastPut k H) :
    lastEntry k ((o, r) :: L) ≠ none ↔ LastPut k ((d, req) :: H) := by
  cases h with
  | getKnown | getRandom =>
    cases ha with
    | get => exact hL.trans lastPut_get.symm
    | _ => simp_all
  | put =>
    cases ha with
    | put _ hn =>
      have hn' : Request.Names ⟨11, .put, 0x2F :: (g.randomKey d ++ 0x2F :: generateValue d)⟩
          (g.randomKey d) (generateValue d) :=
        ⟨rfl, g.slash_notMem_randomKey d, hkey,
          List.ne_nil_of_length_pos (length_generateValue d).1⟩
      cases (Request.pair_eq_ok.2 hn).symm.trans (Request.pair_eq_ok.2 hn')
      rw [lastPut_put (g.slash_notMem_randomKey d), ← hL]
      change (if g.randomKey d = k then some _ else lastEntry k L) ≠ none ↔ _
      split <;> simp_all
    | _ => simp_all
  | deleteKnown | deleteRandom =>
    cases ha with
    | delete =>
      rw [lastPut_delete, ← hL]
      change (if g.randomKey d = k then none else lastEntry k L) ≠ none ↔ _
      split <;> simp_all
    | _ => simp_all

/-- What the generator knows is what the server stores. -/
structure InStep (keyPool : Fin keyPoolSize → PoolKey)
    (H : List (Draws × (Request × Option Response))) (g : RequestGenerator) (s : Impl LRU) :
    Prop where
  known : RequestGenerator.Known keyPool g
  mirrors : RequestGenerator.Mirrors (generatedRequests H) g
  serving : Serving Triple.Sized s
  stock : s.Stock (poolKeys keyPool) 501
  memory : benchmarkMemory ≤ s.maxmem.toNat
  calls : ∃ L, ∀ k, s.view.find k = lastEntry k L ∧
    (lastEntry k L ≠ none ↔ RequestGenerator.LastPut k (generatedRequests H))

namespace InStep

variable {H : List (Draws × (Request × Option Response))}

/-- An expected draw keeps the two in step. -/
theorem call (h : InStep keyPool H g s) (hpool : ∀ i, (keyPool i).1 ≠ [])
    (hd : Expected (g, s) d) (hgen : g.generateRequest d = .ok (req, g'))
    (hres : handleRequest s req = .ok (res, s')) : InStep keyPool ((d, (req, res)) :: H) g' s' := by
  have hg := RequestGenerator.generates_cases hgen
  have hkey : g.randomKey d ≠ [] := by
    rw [h.known.randomKey_eq]
    exact hpool _
  obtain ⟨hmatched, hplain⟩ := hd
  simp only [hgen] at hplain
  obtain ⟨o, ha, hmodest, hstores⟩ := h.known.asks hpool hg
  obtain ⟨_, r, hop, hr, -⟩ := op_of_handleRequest hres
  cases (Request.op_eq_ok.2 ha).symm.trans hop
  obtain ⟨⟨⟩, -⟩ | ⟨_, r, ⟨⟩, rfl, hst⟩ := perform_cases hr
  have hc := Impl.step_cases hst
  have hcap : ((poolKeys keyPool).length + 1) * 501 ≤ s.maxmem.toNat := by
    rw [poolKeys, List.length_ofFn]
    exact h.memory
  obtain ⟨L, hL⟩ := h.calls
  obtain ⟨hstock, hview⟩ := h.stock.call hc hcap hmodest (hplain _ hop) fun k => (hL k).1
  refine ⟨h.known.generates hg, (h.known.mirrors_cons h.mirrors hg).2 hmatched,
    (h.serving.handle (fun o' ha' => ?_) hres).2, hstock, hc.maxmem_eq ▸ h.memory, _,
    fun k => ⟨hview k, hg.lastEntry_iff hkey ha (hL k).2⟩⟩
  cases (Request.op_eq_ok.2 ha).symm.trans (Request.op_eq_ok.2 ha')
  exact hstores

theorem mem_iff (h : InStep keyPool H g s) (k : KeyType) :
    0x2F :: k ∈ g.keyCache ↔ s.lookup k ≠ none := by
  obtain ⟨L, hL⟩ := h.calls
  have hfind := Impl.view_find (h.stock.tidy.tidyAt k) (h.stock.genuine.clean k)
  rw [h.mirrors k, ← (hL k).2, ← (hL k).1, hfind, Ne, Option.map_eq_none_iff]

theorem hit (h : InStep keyPool H g s) (hpool : ∀ i, (keyPool i).1 ≠ [])
    (hm : g.methodGenerator.generateMethod d = .get) (hd : g.DrawsKnown d) :
    ∃ req v p, drive.step (g, s) d = .ok ((req, some (req.showPair .ok req.key v)), p) := by
  obtain ⟨i, hi⟩ := h.known.exists_getKeyFromCache hd.1 d.rand
  have hgen : g.generateRequest d = .ok (⟨11, .get, 0x2F :: (keyPool i).1⟩, g) := by
    have hif : 0 < g.keyGenerator.getKeyCacheLength ∧ d.known ≤ knownCutoff := hd
    simp only [RequestGenerator.generateRequest, hm, if_pos hif, hi]
    rfl
  have hmem := (h.mem_iff _).1 (RequestGenerator.mem_of_getKeyFromCache hi)
  obtain ⟨t, hl⟩ := Option.ne_none_iff_exists'.1 hmem
  have hsized : t.Sized := h.serving.entries.of_lookup hl (hpool i)
  obtain ⟨v, hv, -⟩ := id hsized
  obtain ⟨hpos, hsize⟩ := hsized.not_dvd hv
  have hres : handleRequest s ⟨11, .get, 0x2F :: (keyPool i).1⟩ = _ :=
    handle_get_present rfl (RequestGenerator.one_lt_length_slash (hpool i)) hl hv hpos hsize
  exact ⟨_, v, (g, _), drive_step.2 ⟨hgen, hres⟩⟩

end InStep

variable {maxmem : UInt32} {f : FloatVal} {hasher : KeyType → UInt64}
  {H : List (Draws × (Request × Option Response))}

theorem inStep_of_reaches (hpool : ∀ i, (keyPool i).1 ≠ [])
    (hmem : benchmarkMemory ≤ maxmem.toNat)
    (h : drive.Reaches Expected (.new mg keyPool, serverCache maxmem f hasher) H (g, s)) :
    InStep keyPool H g s := by
  refine h.invariant (I := fun H p => InStep keyPool H p.1 p.2) ?_ ?_
  · refine ⟨RequestGenerator.known_new, fun k => iff_of_false List.not_mem_nil id,
      serving_serverCache _ _ _ _, Impl.stock_new _ _ _ _, hmem, [], fun k => ⟨?_, ?_⟩⟩
    · rw [serverCache, (Impl.Tidy.new maxmem f _ _).2, Store.find_new, lastEntry]
    · exact iff_of_false (fun hne => hne rfl) id
  · rintro H ⟨g, s⟩ d ⟨req, res⟩ ⟨g', s'⟩ hinv hd hst
    obtain ⟨hgen, hres⟩ := drive_step.1 hst
    exact hinv.call hpool hd hgen hres

/-- **What the generator knows is what the server stores.**  Let the server have enough memory for
all values of the pool and one more.  In every run of one thread with expected draws a key is known
exactly if it is stored, and every `GET` that is drawn from the known keys is answered by a
value. -/
theorem known_iff_stored (hpool : ∀ i, (keyPool i).1 ≠ []) (hmem : benchmarkMemory ≤ maxmem.toNat)
    (h : drive.Reaches Expected (.new mg keyPool, serverCache maxmem f hasher) H (g, s)) :
    (∀ k, 0x2F :: k ∈ g.keyCache ↔ s.lookup k ≠ none) ∧
      ∀ d, g.methodGenerator.generateMethod d = .get → g.DrawsKnown d →
        ∃ req v p, drive.step (g, s) d = .ok ((req, some (req.showPair .ok req.key v)), p) :=
  have hinv := inStep_of_reaches hpool hmem h
  ⟨hinv.mem_iff, fun _ => hinv.hit hpool⟩

/-- A `PUT` of the only key, a `GET` of it and a `DELETE` that forgets it. -/
theorem known_iff_stored_put : ∃ H p, drive.exec
      (.new ⟨3/5, 9/10⟩ fun _ => RequestGenerator.keyA, serverCache 5010501 (.finite 3 2) firstByte)
      [RequestGenerator.drawsOf (7/10) 0, RequestGenerator.drawsOf (1/2) 0,
        RequestGenerator.drawsOf (19/20) (9/10), RequestGenerator.drawsOf (7/10) 0] =
        some (H, p) ∧
    p.1.keyCache = [str "/a"] ∧ ∀ k, 0x2F :: k ∈ p.1.keyCache ↔ p.2.lookup k ≠ none :=
  Machine.exists_exec (Machine.exists_exec_of_any (by decide +kernel)) (by decide +kernel)
    fun _ p h (hD : p.1.keyCache = [str "/a"]) =>
      ⟨hD, (known_iff_stored (fun _ => by decide) (by decide +kernel) h).1⟩

end CrankItUp
