import CrankItUp.Cache.Placeholders
import CrankItUp.Evictor.Lru

/-!
# Every stored triple can be evicted

The evictor forgets the key that it hands out, whether `del` finds a triple for it or not.

* `Impl.yields s n k` : the number of stored triples that deleting the key `k` removes.
* `Impl.Reclaims a n size` : if the activation evicts a key, no stored triple with this key is left.
* `Impl.Reclaimable s n` : the evictor knows the keys of all stored triples.
* `Impl.mem_keys_of_stored` : this holds in every run in which all evictions are of this kind.
-/

namespace CrankItUp

namespace Impl

variable {ε : Type} (s : Impl ε)

/-- The number of stored triples that deleting the key removes, if `n` are placeholders. -/
def yields (n : ℕ) (key : KeyType) : ℕ :=
  match s.lookup key with
  | some t => if t = Triple.default ∧ 0 < n then 0 else 1
  | none => 0

variable {s} {s' g : Impl ε} {key k : KeyType} {val : ValType} {size : UInt32} {t : Triple} {n : ℕ}

/-! ### The number of stored triples with a key -/

theorem count_default_le (l : List Triple) :
    l.count Triple.default ≤ l.countP fun t => t.key = [] :=
  List.countP_mono_left fun t _ ht => by simp_all [Triple.default]

theorem storedAt_pos (hn : n ≤ s.defaults) (ht : t ∈ s.triples) (hne : t ≠ Triple.default) :
    0 < s.storedAt n t.key := by
  have hperm := List.perm_cons_erase ht
  have hcount := hperm.countP_eq fun u => u.key = t.key
  rw [List.countP_cons_of_pos (by simp)] at hcount
  rw [storedAt, hcount]
  split
  · -- a triple with the empty key comes on top of the default ones
    rename_i hk
    have hle := count_default_le (s.triples.erase t)
    rw [defaults, hperm.count_eq, List.count_cons_of_ne hne] at hn
    rw [hk]
    omega
  · omega

theorem storedAt_eq_of_perm (h : s.triples.Perm s'.triples) (n : ℕ) (key : KeyType) :
    s.storedAt n key = s'.storedAt n key := by
  rw [storedAt, storedAt, h.countP_eq]

theorem storedAt_push_ne (hpos : 0 < s.dict.length) (hk : k ≠ key) :
    (s.push key val size).storedAt n k = s.storedAt n k := by
  rw [storedAt, (push_triples_perm hpos).countP_eq, List.countP_cons_of_neg (by simp [hk.symm])]
  rfl

theorem Deletes.held (h : s.Deletes key t s') (hn : n ≤ s.defaults) :
    (n - if t = Triple.default then 1 else 0) ≤ s'.defaults := by
  rw [h.defaults_eq] at hn
  omega

theorem Deletes.storedAt_self (h : s.Deletes key t s') (hn : n ≤ s.defaults) :
    s.storedAt n key = s'.storedAt (n - if t = Triple.default then 1 else 0) key +
      s.yields n key := by
  have hkey := lookup_key h.lookup_eq
  have hcount := h.triples_perm.countP_eq fun u => u.key = key
  rw [List.countP_cons_of_pos (by simpa using hkey)] at hcount
  have hle : s.defaults ≤ _ := count_default_le s.triples
  have hdef := h.defaults_eq
  have hle' : s'.defaults ≤ _ := count_default_le s'.triples
  rw [yields, h.lookup_eq, storedAt, storedAt, hcount]
  dsimp only
  by_cases ht : t = Triple.default
  · obtain rfl : key = [] := by rw [← hkey, ht]; rfl
    rw [hcount] at hle
    simp only [ht, true_and, ↓reduceIte] at *
    split <;> omega
  · simp only [ht, false_and, ↓reduceIte] at *
    split
    · rename_i hk
      subst hk
      omega
    · omega

theorem Deletes.storedAt_ne (h : s.Deletes key t s') (hk : k ≠ key) :
    s'.storedAt (n - if t = Triple.default then 1 else 0) k = s.storedAt n k := by
  have hkey := lookup_key h.lookup_eq
  rw [storedAt, storedAt, h.triples_perm.countP_eq,
    List.countP_cons_of_neg (by simpa [hkey] using hk.symm)]
  by_cases ht : t = Triple.default
  · have hne : k ≠ [] := by
      rintro rfl
      exact hk (by rw [← hkey, ht]; rfl)
    simp [hne]
  · simp [ht]

/-! ### What the evictor knows -/

/-- The evictor knows the key of every stored triple. -/
structure Knows (s : Impl LRU) (n : ℕ) (e : LRU) : Prop where
  held : n ≤ s.defaults
  mem_keys : ∀ k, 0 < s.storedAt n k → k ∈ e.keys

/-- There is an evictor, and it knows the key of every stored triple. -/
def Reclaimable (s : Impl LRU) (n : ℕ) : Prop := ∃ e, s.evictor = some e ∧ Knows s n e

/-- If the activation evicts a key, deleting it leaves no stored triple with this key. -/
def Reclaims (a : Impl LRU) (n : ℕ) (size : UInt32) : Prop :=
  ∀ g, a.grow = .ok g → ¬ g.Fits size → ∀ e ∈ g.evictor,
    g.storedAt n (Evictor.evict e).1 ≤ g.yields n (Evictor.evict e).1

instance (a : Impl LRU) (n : ℕ) (size : UInt32) : Decidable (a.Reclaims n size) :=
  match hg : a.grow with
  | .error _ => isTrue fun _ h => nomatch hg.symm.trans h
  | .ok g => decidable_of_iff (¬ g.Fits size → ∀ e ∈ g.evictor,
        g.storedAt n (Evictor.evict e).1 ≤ g.yields n (Evictor.evict e).1)
      ⟨fun h g' hg' => by cases hg.symm.trans hg'; exact h, fun h => h g hg⟩

variable {s s' g : Impl LRU} {e : LRU} {m : ℕ}

namespace Knows

theorem touch (h : Knows s n e) (hm : m ≤ s'.defaults)
    (hst : ∀ k, k ≠ key → s'.storedAt m k = s.storedAt n k) :
    Knows s' m (Evictor.touchKey e key) := by
  refine ⟨hm, fun k hk => ?_⟩
  rw [LRU.keys_touchKey]
  by_cases hkey : k = key
  · exact hkey ▸ List.mem_cons_self
  · rw [hst k hkey] at hk
    exact List.mem_cons_of_mem _ ((List.mem_erase_of_ne hkey).2 (h.mem_keys k hk))

theorem evict (h : Knows s n e) (hm : m ≤ s'.defaults)
    (hst : ∀ k, k ≠ (Evictor.evict e).1 → s'.storedAt m k = s.storedAt n k)
    (hself : s'.storedAt m (Evictor.evict e).1 = 0) : Knows s' m (Evictor.evict e).2 := by
  refine ⟨hm, fun k hk => ?_⟩
  have hne : k ≠ (Evictor.evict e).1 := by
    rintro rfl
    omega
  rw [hst k hne] at hk
  have hmem := h.mem_keys k hk
  rw [LRU.keys_evict]
  rw [LRU.evict_fst, List.getLast?_eq_some_getLast (List.ne_nil_of_mem hmem),
    Option.getD_some] at hne
  rw [← List.dropLast_append_getLast (List.ne_nil_of_mem hmem), List.mem_append,
    List.mem_singleton] at hmem
  exact hmem.resolve_right hne

end Knows

/-- An activation whose eviction leaves no stored triple behind keeps all stored triples known. -/
theorem Activation.reclaimable {ex : Exit} (h : s.Activation key val size ex s')
    (hs : s.Reclaimable n) (hr : s.Reclaims n size) : s'.Reclaimable (spend s s' n) := by
  obtain ⟨e, he, hk⟩ := hs
  have hgrow : ∀ g, s.grow = .ok g → g.evictor = some e ∧ Knows g n e ∧
      spend s s' n = spend g s' n := fun g hg => by
    have hperm := (grow_frame hg).2
    have hdef := defaults_eq_of_perm hperm
    refine ⟨(grow_evictor hg).trans he, ⟨hdef ▸ hk.held, fun k hpos => ?_⟩, ?_⟩
    · exact hk.mem_keys k (storedAt_eq_of_perm hperm n k ▸ hpos)
    · rw [spend, spend, hdef]
  cases h with
  | @stored g hg hpos _ _ =>
    obtain ⟨hge, hgk, hspend⟩ := hgrow _ hg
    have hle : g.defaults ≤ (g.push key val size).defaults := defaults_le_push hpos
    rw [hspend]
    refine ⟨Evictor.touchKey e key, by simp [touchKey, push, hge], ?_⟩
    rw [show spend g ((g.push key val size).touchKey key) n = n from spend_of_le hle]
    exact hgk.touch (Nat.le_trans hgk.held hle) fun k hne => storedAt_push_ne hpos hne
  | @overwrites g g' t w hg _ _ hd =>
    obtain ⟨hge, hgk, hspend⟩ := hgrow _ hg
    rw [hspend]
    refine ⟨Evictor.touchKey e key, by simp [touchKey, hd.frame.2.1, hge], ?_⟩
    rw [show spend g (g'.touchKey key) n = _ from hd.spend_eq]
    exact hgk.touch (hd.held hgk.held) fun k hne => hd.storedAt_ne hne
  | @evicts g g' e' t hg hfit hge' hd =>
    obtain ⟨hge, hgk, hspend⟩ := hgrow _ hg
    obtain rfl : e' = e := Option.some.inj (hge'.symm.trans hge)
    have hself := hd.storedAt_self hgk.held
    have hle := hr g hg hfit e' hge
    rw [hspend]
    refine ⟨(Evictor.evict e').2, rfl, ?_⟩
    rw [show spend g { g' with evictor := some (Evictor.evict e').2 } n = _ from hd.spend_eq]
    refine hgk.evict (hd.held hgk.held) (fun k hne => hd.storedAt_ne hne) ?_
    show g'.storedAt _ _ = 0
    omega
  | @misses g e' hg hfit hge' hl =>
    obtain ⟨hge, hgk, hspend⟩ := hgrow _ hg
    obtain rfl : e' = e := Option.some.inj (hge'.symm.trans hge)
    have hle := hr g hg hfit e' hge
    rw [yields, hl] at hle
    rw [hspend, show spend g { g with evictor := some (Evictor.evict e').2 } n = n from
      spend_of_le (Nat.le_refl _)]
    exact ⟨_, rfl, hgk.evict hgk.held (fun _ _ => rfl) (Nat.le_zero.1 hle)⟩
  | refused hg _ hno => simp [(hgrow _ hg).1] at hno

/-! ### The calls -/

variable {γ : Ghost} {o : Op} {r : Result} {q : Impl LRU × Ghost}

theorem Reclaimable.deletes (h : s.Reclaimable n) (hd : s.Deletes key t s') :
    s'.Reclaimable (n - if t = Triple.default then 1 else 0) := by
  obtain ⟨e, he, hk⟩ := h
  refine ⟨e, hd.frame.2.1.trans he, hd.held hk.held, fun k hpos => ?_⟩
  by_cases hkey : k = key
  · subst hkey
    exact hk.mem_keys k (by rw [hd.storedAt_self hk.held]; omega)
  · exact hk.mem_keys k (hd.storedAt_ne hkey ▸ hpos)

theorem Reclaimable.touchKey (h : s.Reclaimable n) (key : KeyType) :
    (s.touchKey key).Reclaimable n := by
  obtain ⟨e, he, hk⟩ := h
  exact ⟨_, by simp [Impl.touchKey, he]; rfl, hk.touch hk.held fun _ _ => rfl⟩

theorem reset_storedAt (s : Impl LRU) (key : KeyType) : s.reset.storedAt s.dict.length key = 0 := by
  rw [storedAt, reset_triples, List.countP_replicate]
  by_cases hk : key = []
  · simp [hk, Triple.default]
  · simp [Triple.default, hk, Ne.symm hk]

theorem TrackedCall.reclaimable (h : s.TrackedCall γ o r q) (hs : s.Reclaimable γ.placeholders)
    (ho : EachTracked Reclaims (s, γ) o) : q.1.Reclaimable q.2.placeholders := by
  cases h with
  | @set key val size es s' m hends =>
    refine hends.invariant (P := fun a => a.1.Reclaimable a.2) hs ?_
    rintro ⟨a, n⟩ e ⟨b, n'⟩ ha - har hb
    obtain ⟨hb', rfl⟩ := trackedLoop_body.1 hb
    exact (setBody_cases hb').reclaimable har (ho _ ha)
  | get hget =>
    obtain ⟨-, ⟨-, -, -, rfl⟩ | ⟨_, _, -, -, -, -, rfl⟩⟩ := get_cases hget
    exacts [hs, hs.touchKey _]
  | kept => exact hs
  | del hd => exact hs.deletes hd
  | spaceUsed => exact hs
  | reset =>
    obtain ⟨e, he, -⟩ := hs
    refine ⟨e, he, Nat.le_of_eq reset_defaults.symm, fun k hk => ?_⟩
    rw [reset_storedAt] at hk
    cases hk

variable {maxmem : UInt32} {maxLoadFactor : FloatVal} {hasher : Option (KeyType → UInt64)}
  {H : List (Op × Result)}

/-- **Every stored triple can be evicted.**  With the evictor `LRU`, in a run in which deleting an
evicted key leaves no stored triple with this key, the evictor knows the key of every triple in the
table that has been stored. -/
theorem mem_keys_of_stored
    (h : (tracked LRU).Reaches (EachTracked Reclaims)
      (new maxmem maxLoadFactor (some LRU.new) hasher, ⟨0, 0⟩) H (s, γ)) :
    ∃ e, s.evictor = some e ∧ (∀ k, 0 < s.storedAt γ.placeholders k → k ∈ e.keys) ∧
      ∀ t ∈ s.triples, t ≠ Triple.default → t.key ∈ e.keys := by
  obtain ⟨e, he, hk⟩ := h.state_invariant (I := fun p => p.1.Reclaimable p.2.placeholders)
    ⟨LRU.new, rfl, Nat.zero_le _, fun k hk => by simp [storedAt, new_triples] at hk⟩
    fun _ _ _ _ hs ho hst => (trackedStep_cases hst).reclaimable hs ho
  exact ⟨e, he, hk.mem_keys, fun t ht hne => hk.mem_keys _ (storedAt_pos hk.held ht hne)⟩

/-- Two evictions, one of them in a table that has grown. -/
theorem mem_keys_evicted : ∃ H p, (tracked LRU).exec (small 6 (some LRU.new), ⟨0, 0⟩)
      [.set [1] (text "a") 2, .set [4] (text "b") 2, .set [8] (text "c") 2, .get [1] 0,
        .set [5] (text "d") 4] = some (H, p) ∧
    ∃ e, p.1.evictor = some e ∧ ∀ t ∈ p.1.triples, t ≠ Triple.default → t.key ∈ e.keys :=
  Machine.exists_exec ⟨_, _, rfl, trivial⟩ (by decide) fun _ _ h (_ : True) =>
    have ⟨e, he, _, hmem⟩ := mem_keys_of_stored h
    ⟨e, he, hmem⟩

/-- The triple of the key 2 is out of sight when the key is evicted; it stays in the table, and the
evictor has forgotten it. -/
theorem not_mem_keys_of_stored : ∃ H p, (tracked LRU).exec (small 6 (some LRU.new), ⟨0, 0⟩)
      [.set [2] (text "a") 2, .set [1] (text "b") 2, .set [3] (text "c") 2,
        .set [5] (text "d") 2] = some (H, p) ∧
    ∃ e, p.1.evictor = some e ∧ ∃ t ∈ p.1.triples, t.val = text "a" ∧
      0 < p.1.storedAt p.2.placeholders t.key ∧ t.key ∉ e.keys :=
  ⟨_, _, rfl, _, rfl, ⟨[2], 2, text "a"⟩, by decide, rfl, by decide, by decide⟩

end Impl

end CrankItUp
