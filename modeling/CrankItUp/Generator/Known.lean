import CrankItUp.Generator.Basic
import CrankItUp.Server.Codec

/-!
# What the generator knows

The known keys are meant to be those that are stored on the server, and the requests are meant for
the server's way of reading targets.

* `RequestGenerator.Generates` : the requests that a call can generate.
* `RequestGenerator.Known` : the known keys are distinct and come from the pool; every call keeps
  this.
* `RequestGenerator.accepted` : the server reads from a request what the generator has put into it.
* `RequestGenerator.Matched` : a `DELETE` forgets the key that it names, and nothing else.
* `RequestGenerator.mirrors_iff` : exactly then the known keys stay those that have been stored
  last.
-/

namespace CrankItUp

/-- The server gets past the assertions on the target, and makes this call. -/
def Request.Decodes (req : Request) (o : Op) : Prop :=
  ∀ s : Impl LRU, handleRequest s req = (do
    let (r, s') ← s.step o
    let res ← req.respond (some (o, r))
    return (res, s'))

theorem Request.Asks.decodes {req : Request} {o : Op} (h : req.Asks (some o)) :
    req.Decodes o := by
  intro s
  rw [handleRequest_eq, op_eq_ok.2 h]
  simp only [Impl.perform, bind, Except.bind]
  cases s.step o <;> rfl

/-- The key that a request names, as the server reads it. -/
def Request.named (req : Request) : KeyType :=
  match req.method with
  | .put => req.key.takeWhile (· ≠ 0x2F)
  | _ => req.key

/-! ### Letters -/

theorem le_of_mem_alphanumeric {c : UInt8} (h : c ∈ alphanumeric) : 0x30 ≤ c := by
  have hall : alphanumeric.all (fun c => decide (0x30 ≤ c)) = true := by decide
  exact of_decide_eq_true (List.all_eq_true.1 hall c h)

theorem slash_notMem_poolKey (k : PoolKey) : 0x2F ∉ k.1 := fun h =>
  absurd (le_of_mem_alphanumeric (k.2 _ h)) (by decide)

theorem nul_notMem_generateValue (d : Draws) : 0 ∉ generateValue d := fun h => by
  obtain ⟨i, -, hi⟩ := List.mem_map.1 h
  have hmem : 0 ∈ alphanumeric := hi ▸ List.get_mem alphanumeric (d.valueChars i)
  exact absurd (le_of_mem_alphanumeric hmem) (by decide)

theorem length_generateValue (d : Draws) :
    1 ≤ (generateValue d).length ∧ (generateValue d).length ≤ 500 := by
  have hlen : (generateValue d).length = (d.valueLength % 500 + 1).toNat := by
    simp [generateValue]
  have hmod : (d.valueLength % 500 + 1).toNat = d.valueLength.toNat % 500 + 1 := by
    rw [UInt32.toNat_add, UInt32.toNat_mod]
    have := Nat.mod_lt d.valueLength.toNat (show 0 < 500 by omega)
    exact Nat.mod_eq_of_lt (by simp; omega)
  omega

namespace RequestGenerator

/-- The known key is drawn from the list. -/
def DrawsKnown (g : RequestGenerator) (d : Draws) : Prop :=
  0 < g.keyGenerator.getKeyCacheLength ∧ d.known ≤ knownCutoff

instance (g : RequestGenerator) (d : Draws) : Decidable (g.DrawsKnown d) :=
  inferInstanceAs (Decidable (_ ∧ _))

/-- The targets of the known keys. -/
def keyCache (g : RequestGenerator) : List Bytes := g.keyGenerator.keyCache

/-- The random key. -/
def randomKey (g : RequestGenerator) (d : Draws) : KeyType := g.keyGenerator.generateKey d

/-- The requests that a call can generate. -/
inductive Generates (g : RequestGenerator) (d : Draws) : Request → RequestGenerator → Prop
  | getKnown {target : Bytes} : g.methodGenerator.generateMethod d = .get → g.DrawsKnown d →
      g.keyGenerator.getKeyFromCache d.rand = .ok target → Generates g d ⟨11, .get, target⟩ g
  | getRandom : g.methodGenerator.generateMethod d = .get → ¬ g.DrawsKnown d →
      Generates g d ⟨11, .get, 0x2F :: g.randomKey d⟩ g
  | put {g' : RequestGenerator} : g.methodGenerator.generateMethod d = .put →
      g'.keyGenerator.keyPool = g.keyGenerator.keyPool →
      g'.keyCache = (if 0x2F :: g.randomKey d ∈ g.keyCache then g.keyCache
        else g.keyCache ++ [0x2F :: g.randomKey d]) →
      Generates g d ⟨11, .put, 0x2F :: (g.randomKey d ++ 0x2F :: generateValue d)⟩ g'
  | deleteKnown {key : Bytes} : g.methodGenerator.generateMethod d = .delete → g.DrawsKnown d →
      g.keyGenerator.getKeyFromCache d.rand = .ok key →
      Generates g d ⟨11, .delete, 0x2F :: g.randomKey d⟩
        (g.withKeys (g.keyGenerator.deleteKeyFromCache key))
  | deleteRandom : g.methodGenerator.generateMethod d = .delete → ¬ g.DrawsKnown d →
      Generates g d ⟨11, .delete, 0x2F :: g.randomKey d⟩ g

variable {g g' : RequestGenerator} {d : Draws} {req : Request} {k : KeyType} {key : Bytes}
  {H : List (Draws × Request)} {mg : MethodGenerator} {keyPool : Fin keyPoolSize → PoolKey}

theorem generateMethod_cases (mg : MethodGenerator) (d : Draws) :
    mg.generateMethod d = .get ∨ mg.generateMethod d = .put ∨ mg.generateMethod d = .delete := by
  unfold MethodGenerator.generateMethod
  split
  · exact .inl rfl
  · split
    exacts [.inr (.inl rfl), .inr (.inr rfl)]

theorem isKeyInCache_iff {g : KeyGenerator} : g.isKeyInCache key = true ↔ key ∈ g.keyCache := by
  rw [KeyGenerator.isKeyInCache, decide_eq_true_iff, Ne, List.count_eq_zero, not_not]

theorem generates_cases (h : g.generateRequest d = .ok (req, g')) : g.Generates d req g' := by
  unfold generateRequest at h
  rcases generateMethod_cases g.methodGenerator d with hm | hm | hm <;> simp only [hm] at h
  · split at h
    · rename_i hknown
      obtain ⟨target, ht, h⟩ := bind_eq_ok.1 h
      cases h
      exact .getKnown hm hknown ht
    · rename_i hknown
      cases h
      exact .getRandom hm hknown
  · split at h
    · rename_i hnew
      rw [← Bool.not_eq_true, isKeyInCache_iff] at hnew
      cases h
      exact .put hm rfl (if_neg hnew).symm
    · rename_i hold
      rw [Bool.not_eq_false, isKeyInCache_iff] at hold
      cases h
      exact .put hm rfl (if_pos hold).symm
  · split at h
    · rename_i hknown
      obtain ⟨key, hk, h⟩ := bind_eq_ok.1 h
      cases h
      exact .deleteKnown hm hknown hk
    · rename_i hknown
      cases h
      exact .deleteRandom hm hknown

theorem slash_notMem_randomKey (g : RequestGenerator) (d : Draws) : 0x2F ∉ g.randomKey d :=
  slash_notMem_poolKey _

/-! ### The known keys -/

/-- What is known is distinct, and comes from the pool. -/
structure Known (keyPool : Fin keyPoolSize → PoolKey) (g : RequestGenerator) : Prop where
  pool : g.keyGenerator.keyPool = keyPool
  nodup : g.keyCache.Nodup
  of_pool : ∀ e ∈ g.keyCache, ∃ i, e = 0x2F :: (keyPool i).1

theorem mem_of_getKeyFromCache {g : KeyGenerator} {rand : ℕ}
    (h : g.getKeyFromCache rand = .ok key) : key ∈ g.keyCache := by
  unfold KeyGenerator.getKeyFromCache at h
  split at h
  · cases h
  · split at h
    · rename_i hget
      cases h
      exact List.mem_of_getElem? hget
    · cases h

theorem known_new : Known keyPool (new mg keyPool) where
  pool := rfl
  nodup := List.nodup_nil
  of_pool := fun _ h => by cases h

namespace Known

theorem randomKey_eq (hg : Known keyPool g) (d : Draws) :
    g.randomKey d = (keyPool d.poolIndex).1 := by
  rw [← hg.pool]
  rfl

/-- What a call does to the list of known keys keeps them distinct and from the pool. -/
theorem generates (hg : Known keyPool g) (h : g.Generates d req g') : Known keyPool g' := by
  cases h with
  | getKnown | getRandom | deleteRandom => exact hg
  | put _ hpool hcache =>
    refine ⟨hpool.trans hg.pool, ?_, ?_⟩
    all_goals rw [hcache]; split
    · exact hg.nodup
    · rename_i hnew
      exact List.nodup_append.2 ⟨hg.nodup, List.nodup_singleton _, fun a ha b hb hab => by
        rw [List.mem_singleton] at hb
        exact hnew (hb ▸ hab ▸ ha)⟩
    · exact hg.of_pool
    · intro e he
      rcases List.mem_append.1 he with he | he
      · exact hg.of_pool e he
      · rw [List.mem_singleton] at he
        exact ⟨d.poolIndex, he.trans (by rw [hg.randomKey_eq])⟩
  | deleteKnown =>
    exact ⟨hg.pool, hg.nodup.filter _, fun e he => hg.of_pool e (List.mem_filter.1 he).1⟩

theorem of_reaches {ok : RequestGenerator → Draws → Prop}
    (h : generator.Reaches ok (new mg keyPool) H g) : Known keyPool g :=
  h.state_invariant known_new fun _ _ _ _ hg _ hst => hg.generates (generates_cases hst)

theorem length_le (hg : Known keyPool g) : g.keyCache.length ≤ keyPoolSize := by
  have hsub : g.keyCache ⊆ List.ofFn fun i => 0x2F :: (keyPool i).1 := by
    intro e he
    obtain ⟨i, rfl⟩ := hg.of_pool e he
    exact List.mem_ofFn.2 ⟨i, rfl⟩
  have hlen := (List.subperm_of_subset hg.nodup hsub).length_le
  rwa [List.length_ofFn] at hlen

theorem cacheSize_eq (hg : Known keyPool g) :
    g.keyGenerator.cacheSize = g.keyCache.length := by
  have hlen : g.keyGenerator.keyCache.length ≤ 10000 := hg.length_le
  exact Int.bmod_eq_of_le (by omega) (by omega)

theorem getKeyCacheLength_pos (hg : Known keyPool g) :
    0 < g.keyGenerator.getKeyCacheLength ↔ 0 < g.keyCache.length := by
  have hlen : g.keyCache.length ≤ 10000 := hg.length_le
  rw [UInt32.lt_iff_toNat_lt, KeyGenerator.getKeyCacheLength, UInt32.toNat_ofNat']
  change 0 < g.keyCache.length % 2 ^ 32 ↔ _
  omega

theorem cacheSize_ne_zero (hg : Known keyPool g) (h : 0 < g.keyGenerator.getKeyCacheLength) :
    g.keyGenerator.cacheSize ≠ 0 := by
  rw [hg.getKeyCacheLength_pos] at h
  rw [hg.cacheSize_eq]
  omega

theorem exists_getKeyFromCache (hg : Known keyPool g)
    (h : 0 < g.keyGenerator.getKeyCacheLength) (rand : ℕ) :
    ∃ i, g.keyGenerator.getKeyFromCache rand = .ok (0x2F :: (keyPool i).1) := by
  have hpos := hg.getKeyCacheLength_pos.1 h
  have hidx : ((rand : ℤ).tmod g.keyGenerator.cacheSize).toNat = rand % g.keyCache.length := by
    rw [hg.cacheSize_eq, ← Int.ofNat_tmod, Int.toNat_natCast]
  obtain ⟨e, he⟩ : ∃ e, g.keyGenerator.keyCache[rand % g.keyCache.length]? = some e :=
    ⟨_, List.getElem?_eq_getElem (Nat.mod_lt _ hpos)⟩
  have hget : g.keyGenerator.getKeyFromCache rand = .ok e := by
    rw [KeyGenerator.getKeyFromCache, if_neg (hg.cacheSize_ne_zero h), hidx, he]
  obtain ⟨i, rfl⟩ := hg.of_pool e (List.mem_of_getElem? he)
  exact ⟨i, hget⟩

end Known

/-! ### What the server reads -/

/-- The server reads from the request what has been drawn for it. -/
def Emits (g : RequestGenerator) (d : Draws) (req : Request) : Prop :=
  match g.methodGenerator.generateMethod d with
  | .get => ∃ i,
      (if g.DrawsKnown d
        then g.keyGenerator.getKeyFromCache d.rand = .ok (0x2F :: (g.keyGenerator.keyPool i).1)
        else i = d.poolIndex) ∧
      req.Decodes (.get (g.keyGenerator.keyPool i).1 0)
  | .put =>
      req.pair = .ok (g.randomKey d, generateValue d) ∧
      (1 ≤ (generateValue d).length ∧ (generateValue d).length ≤ 500) ∧
      req.Decodes (.set (g.randomKey d) (some (CStr.ofBytes (generateValue d)))
        (UInt32.ofNat ((generateValue d).length + 1)))
  | .delete => req.Decodes (.del (g.randomKey d))
  | _ => False

theorem Known.exists_generateRequest (hg : Known keyPool g) (d : Draws) :
    ∃ req g', g.generateRequest d = .ok (req, g') := by
  have hbind : g.DrawsKnown d → ∀ f : Bytes → Request × RequestGenerator,
      ∃ req g', (do
        let key ← g.keyGenerator.getKeyFromCache d.rand
        return f key) = (.ok (req, g') : Except Fault _) := by
    intro hknown f
    obtain ⟨i, hi⟩ := hg.exists_getKeyFromCache hknown.1 d.rand
    rw [hi]
    exact ⟨_, _, rfl⟩
  unfold generateRequest
  rcases generateMethod_cases g.methodGenerator d with hm | hm | hm <;> simp only [hm] <;> split
  · exact hbind ‹_› fun target => (⟨11, .get, target⟩, g)
  · exact ⟨_, _, rfl⟩
  · exact ⟨_, _, rfl⟩
  · exact ⟨_, _, rfl⟩
  · exact hbind ‹_› fun key => (_, g.withKeys (g.keyGenerator.deleteKeyFromCache key))
  · exact ⟨_, _, rfl⟩

theorem one_lt_length_slash {b : Bytes} (h : b ≠ []) : 1 < (0x2F :: b : Bytes).length :=
  Nat.succ_lt_succ (List.length_pos_iff.2 h)

theorem Known.emits (hpool : ∀ i, (keyPool i).1 ≠ []) (hg : Known keyPool g)
    (h : g.Generates d req g') : g.Emits d req := by
  obtain rfl := hg.pool
  have hkey : g.randomKey d ≠ [] := hpool d.poolIndex
  unfold Emits
  cases h with
  | getKnown hm hknown ht =>
    obtain ⟨i, rfl⟩ := hg.of_pool _ (mem_of_getKeyFromCache ht)
    rw [hm]
    refine ⟨i, ?_, Request.Asks.decodes (.get rfl (one_lt_length_slash (hpool i)))⟩
    rwa [if_pos hknown]
  | getRandom hm hknown =>
    rw [hm]
    refine ⟨d.poolIndex, ?_, Request.Asks.decodes (.get rfl (one_lt_length_slash hkey))⟩
    rw [if_neg hknown]
  | put hm =>
    have hlen := length_generateValue d
    have hnames : Request.Names ⟨11, .put, 0x2F :: (g.randomKey d ++ 0x2F :: generateValue d)⟩
        (g.randomKey d) (generateValue d) :=
      ⟨rfl, g.slash_notMem_randomKey d, hkey, List.ne_nil_of_length_pos hlen.1⟩
    rw [hm]
    refine ⟨Request.pair_eq_ok.2 hnames, hlen, ?_⟩
    rw [← strcpy_eq (nul_notMem_generateValue d)]
    exact Request.Asks.decodes (.put rfl hnames)
  | deleteKnown hm | deleteRandom hm =>
    rw [hm]
    exact Request.Asks.decodes (.delete rfl (one_lt_length_slash hkey))

/-- **The server understands the generator.**  If no key of the pool is empty, then after every run
the known keys are distinct and come from the pool, one can be drawn if there are any, and the next
call returns a request from which the server reads what has been drawn for it. -/
theorem accepted (hpool : ∀ i, (keyPool i).1 ≠ [])
    (h : generator.Reaches (fun _ _ => True) (new mg keyPool) H g) :
    g.keyCache.Nodup ∧ (∀ e ∈ g.keyCache, ∃ i, e = 0x2F :: (keyPool i).1) ∧
      (0 < g.keyGenerator.getKeyCacheLength → g.keyGenerator.cacheSize ≠ 0) ∧
      g.keyGenerator.keyPool = keyPool ∧
      ∀ d, ∃ req g', g.generateRequest d = .ok (req, g') ∧ g.Emits d req := by
  have hg : Known keyPool g := .of_reaches h
  refine ⟨hg.nodup, hg.of_pool, hg.cacheSize_ne_zero, hg.pool, fun d => ?_⟩
  obtain ⟨req, g', hst⟩ := hg.exists_generateRequest d
  exact ⟨req, g', hst, hg.emits hpool (generates_cases hst)⟩

/-- The key `a`. -/
def keyA : PoolKey := ⟨str "a", fun c hc => by
  have hall : (str "a").all (fun c => decide (c ∈ alphanumeric)) = true := by decide
  exact of_decide_eq_true (List.all_eq_true.1 hall c hc)⟩

/-- Draws of the first key and a value of one letter. -/
def drawsOf (method known : ℚ) : Draws :=
  ⟨method, ⟨0, by decide⟩, known, 0, 0, fun _ => ⟨0, by decide⟩⟩

/-- A pool of one key, after a `PUT`. -/
theorem accepted_put : ∃ H g,
    generator.exec (new ⟨3/5, 9/10⟩ fun _ => keyA) [drawsOf (7/10) 0] = some (H, g) ∧
    g.keyCache = [str "/a"] ∧
    ∀ d, ∃ req g', g.generateRequest d = .ok (req, g') ∧ g.Emits d req :=
  Machine.exists_exec (Machine.exists_exec_of_any (by decide +kernel))
    (Machine.guarded_true _ _) fun _ g h (hD : g.keyCache = _) =>
      ⟨hD, (accepted (fun _ => by decide) h).2.2.2.2⟩

/-! ### What has been stored last -/

/-- The last request that stores or deletes the key stores it. -/
def LastPut (k : KeyType) : List (Draws × Request) → Prop
  | [] => False
  | (_, req) :: H =>
    if req.named = k ∧ (req.method = .put ∨ req.method = .delete) then req.method = .put
    else LastPut k H

instance LastPut.decidable (k : KeyType) : ∀ H, Decidable (LastPut k H)
  | [] => isFalse id
  | (_, req) :: H =>
    have := LastPut.decidable k H
    inferInstanceAs (Decidable (if req.named = k ∧ (req.method = .put ∨ req.method = .delete)
      then req.method = .put else LastPut k H))

/-- The known keys are those that have been stored last. -/
def Mirrors (H : List (Draws × Request)) (g : RequestGenerator) : Prop :=
  ∀ k : KeyType, 0x2F :: k ∈ g.keyCache ↔ LastPut k H

/-- If a key is to be deleted, then the same key is drawn from the known ones, or none is drawn and
the key is not known. -/
def Matched (g : RequestGenerator) (d : Draws) : Prop :=
  g.methodGenerator.generateMethod d = .delete →
    if g.DrawsKnown d
    then g.keyGenerator.getKeyFromCache d.rand = .ok (0x2F :: g.randomKey d)
    else 0x2F :: g.randomKey d ∉ g.keyCache

instance (g : RequestGenerator) (d : Draws) : Decidable (g.Matched d) :=
  inferInstanceAs (Decidable (_ → if g.DrawsKnown d
    then g.keyGenerator.getKeyFromCache d.rand = .ok (0x2F :: g.randomKey d)
    else 0x2F :: g.randomKey d ∉ g.keyCache))

theorem lastPut_get {target : Bytes} :
    LastPut k ((d, ⟨11, .get, target⟩) :: H) ↔ LastPut k H := by
  simp [LastPut]

theorem lastPut_put {val : Bytes} (hkey : 0x2F ∉ key) :
    LastPut k ((d, ⟨11, .put, 0x2F :: (key ++ 0x2F :: val)⟩) :: H) ↔ key = k ∨ LastPut k H := by
  have hnamed : Request.named ⟨11, .put, 0x2F :: (key ++ 0x2F :: val)⟩ = key := by
    change (key ++ 0x2F :: val).takeWhile (· ≠ 0x2F) = key
    have hpos : ∀ c ∈ key, decide (c ≠ 0x2F) = true := fun c hc =>
      decide_eq_true fun h => hkey (h ▸ hc)
    rw [List.takeWhile_append_of_pos hpos]
    simp
  simp only [LastPut, hnamed]
  by_cases hk : key = k <;> simp [hk]

theorem lastPut_delete :
    LastPut k ((d, ⟨11, .delete, 0x2F :: key⟩) :: H) ↔ key ≠ k ∧ LastPut k H := by
  have hnamed : Request.named ⟨11, .delete, 0x2F :: key⟩ = key := rfl
  simp only [LastPut, hnamed]
  by_cases hk : key = k <;> simp [hk]

theorem matched_of_ne (h : g.methodGenerator.generateMethod d ≠ .delete) : g.Matched d :=
  fun hm => absurd hm h

theorem mirrors_delete {P : KeyType → Prop} (hmir : Mirrors H g)
    (hcache : ∀ k, 0x2F :: k ∈ g'.keyCache ↔ 0x2F :: k ∈ g.keyCache ∧ P k) :
    Mirrors ((d, ⟨11, .delete, 0x2F :: key⟩) :: H) g' ↔
      ∀ k, 0x2F :: k ∈ g.keyCache → (P k ↔ key ≠ k) := by
  refine forall_congr' fun k => ?_
  rw [hcache, lastPut_delete, ← hmir k]
  tauto

theorem Known.mirrors_deleteKnown (hg : Known keyPool g) (hmir : Mirrors H g) {entry : Bytes}
    (hentry : entry ∈ g.keyCache) :
    Mirrors ((d, ⟨11, .delete, 0x2F :: key⟩) :: H)
      (g.withKeys (g.keyGenerator.deleteKeyFromCache entry)) ↔ entry = 0x2F :: key := by
  obtain ⟨i, rfl⟩ := hg.of_pool _ hentry
  have hcache : ∀ k : KeyType, 0x2F :: k ∈ (g.withKeys (g.keyGenerator.deleteKeyFromCache
      (0x2F :: (keyPool i).1))).keyCache ↔ 0x2F :: k ∈ g.keyCache ∧ (keyPool i).1 ≠ k := by
    intro k
    change 0x2F :: k ∈ g.keyCache.filter (· ≠ 0x2F :: (keyPool i).1) ↔ _
    rw [List.mem_filter, decide_eq_true_iff, Ne, List.cons_inj_right, eq_comm]
  rw [mirrors_delete hmir hcache, List.cons_inj_right]
  constructor
  · intro hall
    have hi := hall _ hentry
    by_contra hne
    exact hi.2 (Ne.symm hne) rfl
  · intro heq k _
    rw [heq]

theorem mirrors_deleteRandom (hmir : Mirrors H g) :
    Mirrors ((d, ⟨11, .delete, 0x2F :: key⟩) :: H) g ↔ 0x2F :: key ∉ g.keyCache := by
  have hcache : ∀ k : KeyType, 0x2F :: k ∈ g.keyCache ↔ 0x2F :: k ∈ g.keyCache ∧ True :=
    fun k => (and_iff_left trivial).symm
  rw [mirrors_delete hmir hcache]
  simp only [true_iff]
  constructor
  · exact fun hall hmem => hall _ hmem rfl
  · exact fun hno k hk heq => hno (heq ▸ hk)

/-- Of the calls, those that match keep the mirror. -/
theorem Known.mirrors_cons (hg : Known keyPool g) (hmir : Mirrors H g)
    (h : g.Generates d req g') : Mirrors ((d, req) :: H) g' ↔ g.Matched d := by
  cases h with
  | getKnown hm | getRandom hm =>
    have hd : g.Matched d := matched_of_ne (by rw [hm]; decide)
    exact iff_of_true (fun k => by rw [lastPut_get, hmir k]) hd
  | put hm _ hcache =>
    have hd : g.Matched d := matched_of_ne (by rw [hm]; decide)
    refine iff_of_true (fun k => ?_) hd
    rw [hcache, lastPut_put (g.slash_notMem_randomKey d), ← hmir k]
    split
    · rename_i hold
      exact ⟨.inr, fun hk => hk.elim (fun hk => hk ▸ hold) id⟩
    · rw [List.mem_append, List.mem_singleton, List.cons_inj_right, or_comm, eq_comm]
  | deleteKnown hm hknown hkey =>
    rw [hg.mirrors_deleteKnown hmir (mem_of_getKeyFromCache hkey), Matched, hkey]
    simp only [hm, hknown, ↓reduceIte, forall_const, Except.ok.injEq]
  | deleteRandom hm hknown =>
    rw [mirrors_deleteRandom hmir, Matched]
    simp only [hm, hknown, ↓reduceIte, forall_const]

/-- **The known keys mirror the requests as long as the deletions match.**  In a run all of whose
calls match, the known keys are those that have been stored last; a further call keeps this exactly
if it matches. -/
theorem mirrors_iff (h : generator.Reaches Matched (new mg keyPool) H g) :
    Mirrors H g ∧ ∀ d req g', g.generateRequest d = .ok (req, g') →
      (Mirrors ((d, req) :: H) g' ↔ g.Matched d) := by
  have hmir : Mirrors H g := by
    induction h with
    | start => exact fun k => iff_of_false List.not_mem_nil id
    | call hrun hd hst ih =>
      have hg := Known.of_reaches hrun
      exact (hg.mirrors_cons ih (generates_cases hst)).2 hd
  exact ⟨hmir, fun d req g' hst =>
    (Known.of_reaches h).mirrors_cons hmir (generates_cases hst)⟩

/-- A `PUT` of the only key, and a `DELETE` for which it is drawn from the known ones. -/
theorem mirrors_put_delete : ∃ H g,
    generator.exec (new ⟨3/5, 9/10⟩ fun _ => keyA)
      [drawsOf (7/10) 0, drawsOf (19/20) (9/10)] = some (H, g) ∧
    g.keyCache = [] ∧ Mirrors H g :=
  Machine.exists_exec (Machine.exists_exec_of_any (by decide +kernel)) (by decide +kernel)
    fun _ g h (hD : g.keyCache = _) => ⟨hD, (mirrors_iff h).1⟩

/-- The same requests, but nothing is drawn for the `DELETE`: the key stays among the known ones. -/
theorem not_mirrors : ∃ H g,
    generator.exec (new ⟨3/5, 9/10⟩ fun _ => keyA)
      [drawsOf (7/10) 0, drawsOf (19/20) (24/25)] = some (H, g) ∧
    0x2F :: str "a" ∈ g.keyCache ∧ ¬ LastPut (str "a") H :=
  Machine.exists_exec_of_any (by decide +kernel)

end RequestGenerator

end CrankItUp
