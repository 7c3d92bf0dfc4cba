import CrankItUp.Cache.Doubling
import CrankItUp.Machine.Omission

/-!
# Leaving out reads

`get` tells the evictor of every key that it finds, and `FifoEvictor` appends every key that it
is told of to its queue, so that reads have a part in what is evicted.

* `Impl.Alike` : two caches that differ at most in what their evictors know.
* `Impl.SameVictim` : two activations of `set` that have to evict find the same key to delete, or
  find none.
* `clientView` : the library cache as a client sees it, who is not told how a `set` ends.
* `Impl.keptResults_of_sameVictims` : leaving out calls of `get` leaves the results of the other
  calls as they are, as long as the evictions of the two runs have the same victims.
-/

namespace CrankItUp

/-- What the caller is told; `set` returns nothing. -/
def Result.visible : Result → Result
  | .set _ => .set []
  | r => r

/-- The library cache, with the results that its caller is told. -/
def clientView (ε : Type) [Evictor ε] : Machine (Impl ε) Op Result Fault :=
  (library ε).observe Result.visible

namespace Impl

variable {ε : Type}

/-- The caches differ at most in what their evictors know. -/
def Alike (s t : Impl ε) : Prop :=
  ∃ e, e.isSome = s.evictor.isSome ∧ t = { s with evictor := e }

variable {s t g : Impl ε} {key k k' : KeyType} {val : ValType} {size n : UInt32}

theorem Alike.refl (s : Impl ε) : s.Alike s := ⟨s.evictor, rfl, rfl⟩

/-! ### Calls of caches that are alike -/

theorem Alike.grow (h : s.Alike t) : (∃ f, s.grow = .error f ∧ t.grow = .error f) ∨
    ∃ g g', s.grow = .ok g ∧ t.grow = .ok g' ∧ g.Alike g' := by
  obtain ⟨e, he, rfl⟩ := h
  have hload : ({ s with evictor := e } : Impl ε).getLoadFactor = s.getLoadFactor := rfl
  have hsize : ({ s with evictor := e } : Impl ε).resize =
      s.resize.map fun g => { g with evictor := e } := by
    have hmap : ∀ x : Except Fault (List Bucket),
        (x.map fun d => ({ s with dict := d, evictor := e } : Impl ε)) =
          (x.map fun d => ({ s with dict := d } : Impl ε)).map fun g => { g with evictor := e } :=
      fun x => by cases x <;> rfl
    rw [resize_eq, resize_eq]
    exact hmap _
  simp only [Impl.grow, hload, hsize]
  cases s.getLoadFactor with
  | error f => exact .inl ⟨f, rfl, rfl⟩
  | ok n =>
    simp only [ok_bind]
    split
    · cases hre : s.resize with
      | error f => exact .inl ⟨f, rfl, rfl⟩
      | ok g =>
        obtain ⟨d, rfl, -⟩ := resize_cases hre
        exact .inr ⟨_, _, rfl, rfl, e, he, rfl⟩
    · exact .inr ⟨s, _, rfl, rfl, e, he, rfl⟩

theorem Alike.dict_eq (h : s.Alike t) : s.dict = t.dict := by
  obtain ⟨e, -, rfl⟩ := h
  rfl

theorem Alike.del (h : s.Alike t) (key : KeyType) : Agree Alike (s.del key) (t.del key) := by
  obtain ⟨e, he, rfl⟩ := h
  have hi : ({ s with evictor := e } : Impl ε).bucketIndex key = s.bucketIndex key := rfl
  have hb : ∀ i, ({ s with evictor := e } : Impl ε).bucket i = s.bucket i := fun _ => rfl
  simp only [Impl.del, hi, hb]
  cases s.bucketIndex key with
  | error f => exact rfl
  | ok i =>
    simp only [bind, Except.bind]
    cases eraseKey key (s.bucket i) with
    | none => exact ⟨rfl, e, he, rfl⟩
    | some p => exact ⟨rfl, e, he, rfl⟩

theorem Alike.del_victims (h : s.Alike t)
    (hk : k = k' ∨ (s.lookup k = none ∧ s.lookup k' = none)) :
    Agree Alike (s.del k) (t.del k') := by
  suffices hsame : s.del k = s.del k' by
    rw [hsame]
    exact h.del k'
  obtain rfl | ⟨hk, hk'⟩ := hk
  · rfl
  · simp only [Impl.del]
    rcases Nat.eq_zero_or_pos s.dict.length with h0 | hpos
    · simp only [bucketIndex, h0, ↓reduceIte]
      rfl
    · simp only [bucketIndex_eq_ok.2 ⟨hpos, rfl⟩]
      simp only [bind, Except.bind, eraseKey_eq_none.2 hk, eraseKey_eq_none.2 hk']

section Evictor

variable [Evictor ε]

theorem Alike.touchKey (h : s.Alike t) (k k' : KeyType) :
    (s.touchKey k).Alike (t.touchKey k') := by
  obtain ⟨e, he, rfl⟩ := h
  exact ⟨e.map fun e => Evictor.touchKey e k', by simp [Impl.touchKey, he], rfl⟩

theorem Alike.touchKey_left (h : s.Alike t) (key : KeyType) : (s.touchKey key).Alike t := by
  obtain ⟨e, he, rfl⟩ := h
  exact ⟨e, by simp [Impl.touchKey, he], rfl⟩

theorem Alike.get (h : s.Alike t) (key : KeyType) (n : UInt32) :
    Agree (fun p q => p.1 = q.1 ∧ p.2.Alike q.2) (s.get key n) (t.get key n) := by
  have htouch := h.touchKey key key
  obtain ⟨e, he, rfl⟩ := h
  have hi : ({ s with evictor := e } : Impl ε).bucketIndex key = s.bucketIndex key := rfl
  have hb : ∀ i, ({ s with evictor := e } : Impl ε).bucket i = s.bucket i := fun _ => rfl
  simp only [Impl.get, hi, hb]
  cases s.bucketIndex key with
  | error f => exact rfl
  | ok i =>
    simp only [bind, Except.bind]
    cases (s.bucket i).find? fun it => it.key = key with
    | none => exact ⟨rfl, rfl, e, he, rfl⟩
    | some it =>
      simp only
      cases it.val with
      | none => exact rfl
      | some v => exact ⟨rfl, rfl, htouch⟩

/-! ### Calls of `set` -/

/-- The keys that the two activations of `set key _ size` delete are the same, or neither of
them is there. -/
def SameVictim (a b : Impl ε) (key : KeyType) (size : UInt32) : Prop :=
  ∀ g g', a.grow = .ok g → b.grow = .ok g' → ∀ k ∈ g.target key size, ∀ k' ∈ g'.target key size,
    k = k' ∨ (g.lookup k = none ∧ g'.lookup k' = none)

theorem Alike.setBody (h : s.Alike t) (hv : SameVictim s t key size) :
    Agree Alike ((setLoop key val size).blind.body s) ((setLoop key val size).blind.body t) := by
  simp only [Loop.blind_body, setLoop, Impl.setBody]
  obtain ⟨f, hg, hg'⟩ | ⟨g, g', hg, hg', hgg'⟩ := h.grow
  · rw [hg, hg']
    exact rfl
  have hvict := hv g g' hg hg'
  have hfit : g'.spaceUsed + size ≤ g'.maxmem ↔ g.spaceUsed + size ≤ g.maxmem := by
    obtain ⟨e, -, rfl⟩ := hgg'
    exact Iff.rfl
  rw [hg, hg', ok_bind, ok_bind]
  by_cases hf : g.spaceUsed + size ≤ g.maxmem
  · rw [if_pos hf, if_pos (hfit.2 hf)]
    refine Agree.through (Agree.bind (hgg'.get key 0) ?_) _
    rintro (_ | v) ⟨n, a⟩ ⟨n', b⟩ ⟨-, hab⟩
    · obtain ⟨e, he, rfl⟩ := hab
      have hi : ({ a with evictor := e } : Impl ε).bucketIndex key = a.bucketIndex key := rfl
      simp only [hi]
      cases a.bucketIndex key with
      | error f => exact rfl
      | ok i =>
        simp only [ok_bind]
        cases pushBack a.dict i ⟨key, size, val⟩ with
        | error f => exact rfl
        | ok d => exact ⟨rfl, _, by simp [Impl.touchKey, he], rfl⟩
    · exact Agree.bind (hab.del key) fun _ _ _ h => ⟨rfl, h⟩
  · rw [if_neg hf, if_neg (mt hfit.1 hf)]
    obtain ⟨x', hx', rfl⟩ := hgg'
    cases hx : g.evictor with
    | none =>
      obtain rfl : x' = none := by simpa [hx] using hx'
      exact ⟨rfl, none, by simp [hx], rfl⟩
    | some e =>
      obtain ⟨e', rfl⟩ : ∃ e', x' = some e' := Option.isSome_iff_exists.1 (by simp [hx', hx])
      -- what the evictors are left with does not matter
      have hleft : Alike { g with evictor := some (Evictor.evict e).2 }
        { g with evictor := some (Evictor.evict e').2 } := ⟨some (Evictor.evict e').2, rfl, rfl⟩
      have hdel := hleft.del_victims
        (hvict _ (target_of_not_fits hf hx) _ (target_of_not_fits hf rfl))
      dsimp only
      rw [through_bind, through_bind]
      refine Agree.bind hdel ?_
      rintro (_ | _) a b hab
      · exact ⟨rfl, hab⟩
      · exact ⟨rfl, hab⟩

theorem Alike.set (h : s.Alike t)
    (hv : ∀ a b, (setLoop key val size).Entered s a → (setLoop key val size).Entered t b →
      a.dict = b.dict → SameVictim a b key size) :
    Agree Alike (through (List.map Exit.again) (s.set key val size))
      (through (List.map Exit.again) (t.set key val size)) := by
  have htriples : t.triples = s.triples := by
    obtain ⟨e, -, rfl⟩ := h
    rfl
  rw [Impl.set, Impl.set, htriples]
  -- the recursions agree once they do not say which key they have not found
  have hrun : Agree Alike ((setLoop key val size).blind.run .deep (s.triples.length + 1) s)
      ((setLoop key val size).blind.run .deep (s.triples.length + 1) t) :=
    Loop.agree_run rfl _ h fun a b ha hb hab =>
      hab.setBody (hv a b (Loop.entered_of_blind ha) (Loop.entered_of_blind hb) hab.dict_eq)
  rwa [Loop.run_blind, Loop.run_blind] at hrun

/-- Whenever a call of `set` has to evict in two caches with the same table, the two evictors
name the same key, or both name keys that are not there. -/
def SameVictims (s t : Impl ε) : Op → Prop
  | .set key val size => ∀ a b, (setLoop key val size).Entered s a →
      (setLoop key val size).Entered t b → a.dict = b.dict → SameVictim a b key size
  | _ => True

/-- The call is a `get` that does not die on a null value. -/
def Omissible (s : Impl ε) : Op → Prop
  | .get key _ => ∀ t ∈ s.lookup key, t.val ≠ none
  | _ => False

/-- A call that is made on both caches. -/
theorem Alike.step {o : Op} (h : s.Alike t) (hv : SameVictims s t o) :
    Agree Alike ((clientView ε).step s o) ((clientView ε).step t o) := by
  cases o with
  | set key val size =>
    have hview : ∀ u : Impl ε, (clientView ε).step u (.set key val size) =
        through (fun _ => Result.set []) (through (List.map Exit.again) (u.set key val size)) := by
      intro u
      simp only [clientView, library, Machine.observe, Impl.step]
      cases u.set key val size <;> rfl
    rw [hview, hview]
    exact Agree.through (h.set hv) _
  | get key n =>
    refine Agree.through (Agree.bind (h.get key n) ?_) _
    rintro v ⟨n, a⟩ ⟨n', b⟩ ⟨rfl, hab⟩
    exact ⟨rfl, hab⟩
  | del key =>
    refine Agree.through (Agree.bind (h.del key) ?_) _
    exact fun _ _ _ hab => ⟨rfl, hab⟩
  | spaceUsed =>
    refine ⟨?_, h⟩
    obtain ⟨e, -, rfl⟩ := h
    rfl
  | reset =>
    obtain ⟨e, he, rfl⟩ := h
    exact ⟨rfl, e, he, rfl⟩

/-- A call of `get` that is made on the first cache only. -/
theorem Alike.omit {o : Op} (h : s.Alike t) (hpos : 0 < s.dict.length) (ho : s.Omissible o) :
    ∃ r s', (clientView ε).step s o = .ok (r, s') ∧ s'.Alike t := by
  cases o with
  | get key n =>
    have hview : ∀ {v n' s'}, s.get key n = .ok (v, n', s') →
        (clientView ε).step s (.get key n) = .ok (.get v n', s') := by
      intro v n' s' hget
      simp only [clientView, library, Machine.observe, Impl.step, hget]
      rfl
    cases hl : s.lookup key with
    | none => exact ⟨_, s, hview (by rw [get_eq hpos, hl]), h⟩
    | some t =>
      obtain ⟨v, hv⟩ := Option.ne_none_iff_exists'.1 (ho t hl)
      exact ⟨_, s.touchKey key, hview (get_of_lookup hl hv n), h.touchKey_left key⟩
  | set | del | spaceUsed | reset => exact ho.elim

theorem clientView_call {s' : Impl ε} {o : Op} {r : Result}
    (h : (clientView ε).step s o = .ok (r, s')) : ∃ r', s.Call o r' s' := by
  obtain ⟨⟨r', s''⟩, hst, hp⟩ := map_eq_ok.1 h
  cases hp
  exact ⟨r', step_cases hst⟩

end Evictor

/-! ### Runs -/

section Decidable

variable [Evictor ε]

instance (a b : Impl ε) (key : KeyType) (size : UInt32) :
    Decidable (SameVictim a b key size) :=
  match hg : a.grow, hg' : b.grow with
  | .error _, _ => isTrue fun _ _ h => by rw [hg] at h; cases h
  | .ok _, .error _ => isTrue fun _ _ _ h => by rw [hg'] at h; cases h
  | .ok g, .ok g' => decidable_of_iff (∀ k ∈ g.target key size, ∀ k' ∈ g'.target key size,
      k = k' ∨ (g.lookup k = none ∧ g'.lookup k' = none))
    ⟨fun h _ _ h₁ h₂ => by rw [hg] at h₁; rw [hg'] at h₂; cases h₁; cases h₂; exact h,
      fun h => h g g' hg hg'⟩

instance (s t : Impl ε) (o : Op) : Decidable (SameVictims s t o) :=
  match o with
  | .set key val size => decidable_of_iff (∀ a ∈ s.activations key val size,
      ∀ b ∈ t.activations key val size, a.dict = b.dict → SameVictim a b key size) (by
        simp only [SameVictims, entered_iff_mem_activations]
        exact ⟨fun h a b ha hb => h a ha b hb, fun h a ha b hb => h a b ha hb⟩)
  | .get _ _ | .del _ | .spaceUsed | .reset => isTrue trivial

instance (s : Impl ε) (o : Op) : Decidable (s.Omissible o) :=
  match o with
  | .get key _ => inferInstanceAs (Decidable (∀ t ∈ s.lookup key, t.val ≠ none))
  | .set _ _ _ | .del _ | .spaceUsed | .reset => isFalse id

end Decidable

/-- **Reads that may be left out.**  Calls of `get` can be left out without an effect on the
results of the other calls, as long as the evictions in the two runs have the same victims. -/
theorem keptResults_of_sameVictims (maxmem : UInt32) (f : FloatVal) (e : FifoEvictor)
    (h : Option (KeyType → UInt64)) (cs : List (Op × Bool))
    (hcs : Machine.Matched (clientView FifoEvictor) (clientView FifoEvictor) SameVictims Omissible
      (new maxmem f (some e) h) (new maxmem f (some e) h) cs) :
    keptResults cs ((clientView FifoEvictor).results (new maxmem f (some e) h) (cs.map Prod.fst)) =
      (clientView FifoEvictor).results (new maxmem f (some e) h) (kept cs) := by
  refine Machine.keptResults_results (I := fun s => s.Doubled ∧ s.evictor.isSome) (Q := Alike)
    ?_ (fun _ _ _ _ hQ hv => hQ.step hv) (fun _ _ _ hI hQ ho => hQ.omit hI.1.pos ho) cs _ _
    ⟨doubled_new _ _ _ _, rfl⟩ (Alike.refl _) hcs
  rintro s o r s' ⟨hd, he⟩ hst
  obtain ⟨r', hc⟩ := clientView_call hst
  exact ⟨(hd.call he hc).2, hc.evictor_isSome.trans he⟩

/-- Two keys are read, and are evicted when it is their turn. -/
theorem keptResults_of_sameVictims_small :
    let s := small 8 (some FifoEvictor.new)
    let cs := [(Op.set [1] (text "abc") 4, false), (Op.set [2] (text "abc") 4, false),
      (Op.get [1] 0, true), (Op.set [3] (text "abc") 4, false), (Op.get [1] 0, false),
      (Op.get [2] 0, true), (Op.set [4] (text "abc") 4, false), (Op.get [3] 0, false)]
    keptResults cs ((clientView FifoEvictor).results s (cs.map Prod.fst)) =
      (clientView FifoEvictor).results s (kept cs) :=
  keptResults_of_sameVictims 8 _ _ _ _ (by decide)

/-- A read of key 1 leaves an entry in the queue that outlives the key: `set` is handed it
instead of key 3, and gives up. -/
theorem keptResults_ne : ∃ cs : List (Op × Bool), (∀ c ∈ cs, c.1 ≠ .reset) ∧
    (∀ c ∈ cs, c.2 = true → ∃ k n, c.1 = .get k n) ∧
    keptResults cs ((clientView FifoEvictor).results (small 8 (some FifoEvictor.new))
      (cs.map Prod.fst)) ≠
        (clientView FifoEvictor).results (small 8 (some FifoEvictor.new)) (kept cs) := by
  refine ⟨[(.set [1] (text "abc") 4, false), (.set [2] (text "abc") 4, false),
    (.get [1] 0, true), (.set [3] (text "abc") 4, false), (.set [4] (text "abc") 4, false),
    (.set [5] (text "abc") 4, false), (.get [5] 0, false)], ?_, ?_, ?_⟩
  · decide
  · simp
  · decide

end Impl

end CrankItUp
