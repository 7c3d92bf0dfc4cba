import CrankItUp.Cache.Placement
import CrankItUp.Evictor.Lru

/-!
# Least recently used, end to end

With the evictor `LRU`, the keys of the table are evicted in the order of their last use.

* `lastUse k H` : when the key has last been used in the history `H`.
* `Impl.Recent H s` : the recency list of the evictor has all keys of the table, in the order of
  their last use.  Every call of the following kind keeps this.
* `Impl.Steady s o` : whenever the table grows in the call, no triple gets out of sight; no
  placeholder is stored, and the cache is not reset.
* `Impl.evicted_before` : a steady call of `set` evicts a key only if all others that are still
  there have been used later.
-/

namespace CrankItUp

/-- The call uses the key: it is a `set` that stored it or a `get` that found it. -/
def uses (k : KeyType) : Op × Result → Bool
  | (.set key _ _, .set es) => decide (key = k ∧ Exit.stored ∈ es)
  | (.get key _, .get (some _) _) => decide (key = k)
  | _ => false

/-- The number of calls up to the last use of the key; 0 if it has not been used. -/
def lastUse (k : KeyType) : List (Op × Result) → ℕ
  | [] => 0
  | c :: H => if uses k c then H.length + 1 else lastUse k H

theorem lastUse_le (k : KeyType) (H : List (Op × Result)) : lastUse k H ≤ H.length := by
  induction H with
  | nil => exact Nat.le_refl _
  | cons c H ih =>
    simp only [lastUse, List.length_cons]
    split <;> omega

theorem lastUse_of_not_uses {k : KeyType} {c : Op × Result} {H : List (Op × Result)}
    (h : uses k c = false) : lastUse k (c :: H) = lastUse k H := by
  simp [lastUse, h]

namespace Impl

variable {s s' : Impl LRU} {key k : KeyType} {val : ValType} {size : UInt32} {t : Triple}
  {H : List (Op × Result)} {e : LRU}

/-- The table has a triple with the key. -/
def Has (s : Impl LRU) (key : KeyType) : Prop := ∃ t ∈ s.triples, t.key = key

/-- The recency list has the keys of the table, those used last first. -/
structure Ordered (H : List (Op × Result)) (s : Impl LRU) (e : LRU) : Prop where
  mem : ∀ k, s.Has k → k ∈ e.keys
  sorted : e.keys.Pairwise fun a b => s.Has a → s.Has b → lastUse b H < lastUse a H
  used : ∀ k, s.Has k → 0 < lastUse k H

/-- The table is tidy, and its evictor in order. -/
structure Recent (H : List (Op × Result)) (s : Impl LRU) : Prop where
  tidyAt : ∀ k, s.TidyAt k
  genuine : s.Genuine
  ordered : ∃ e, s.evictor = some e ∧ Ordered H s e

/-! ### What happens to the order -/

theorem Ordered.mono (h : Ordered H s e) (hsub : ∀ k, s'.Has k → s.Has k) : Ordered H s' e where
  mem k hk := h.mem k (hsub k hk)
  sorted := h.sorted.imp fun hab ha hb => hab (hsub _ ha) (hsub _ hb)
  used k hk := h.used k (hsub k hk)

theorem Ordered.touch_of_not_has (h : Ordered H s e) (hno : ¬ s.Has key) :
    Ordered H s (Evictor.touchKey e key) := by
  refine ⟨fun k hk => ?_, ?_, h.used⟩
  · rw [LRU.keys_touchKey]
    have hne : k ≠ key := by rintro rfl; exact hno hk
    exact List.mem_cons_of_mem _ ((List.mem_erase_of_ne hne).2 (h.mem k hk))
  · rw [LRU.keys_touchKey, List.pairwise_cons]
    exact ⟨fun b _ ha => absurd ha hno, h.sorted.sublist List.erase_sublist⟩

theorem Ordered.evict (h : Ordered H s e) (hno : ¬ s.Has (Evictor.evict e).1) :
    Ordered H s (Evictor.evict e).2 := by
  refine ⟨fun k hk => ?_, ?_, h.used⟩
  · have hmem := h.mem k hk
    obtain ⟨l, x, hl⟩ : ∃ l x, e.keys = l ++ [x] :=
      ⟨_, _, (List.dropLast_append_getLast (List.ne_nil_of_mem hmem)).symm⟩
    rw [LRU.evict_fst, hl] at hno
    rw [LRU.keys_evict, hl, List.dropLast_concat]
    rw [hl, List.mem_append, List.mem_singleton] at hmem
    refine hmem.resolve_right ?_
    rintro rfl
    simp [hk] at hno
  · rw [LRU.keys_evict]
    exact h.sorted.sublist (List.dropLast_sublist _)

theorem Ordered.use {c : Op × Result} (h : Ordered H s e) (huse : ∀ k, uses k c ↔ k = key)
    (hsub : ∀ k, k ≠ key → s'.Has k → s.Has k) :
    Ordered (c :: H) s' (Evictor.touchKey e key) := by
  have hself : lastUse key (c :: H) = H.length + 1 := by
    rw [lastUse, if_pos ((huse key).2 rfl)]
  have hother : ∀ k, k ≠ key → lastUse k (c :: H) = lastUse k H := fun k hk =>
    lastUse_of_not_uses (Bool.eq_false_iff.2 (mt (huse k).1 hk))
  have hne : ∀ b ∈ e.keys.erase key, b ≠ key := by
    rintro b hb rfl
    exact e.nodup_keys.not_mem_erase hb
  -- the key moves to the front and has the latest time; the others keep their order and times
  refine ⟨fun k hk => ?_, ?_, fun k hk => ?_⟩
  · rw [LRU.keys_touchKey]
    by_cases hkey : k = key
    · simp [hkey]
    · exact List.mem_cons_of_mem _ ((List.mem_erase_of_ne hkey).2 (h.mem k (hsub k hkey hk)))
  · rw [LRU.keys_touchKey, List.pairwise_cons]
    constructor
    · intro b hb _ _
      rw [hself, hother b (hne b hb)]
      exact Nat.lt_succ_of_le (lastUse_le b H)
    · refine (h.sorted.sublist List.erase_sublist).imp_of_mem fun {a b} ha hb hab hsa hsb => ?_
      rw [hother a (hne a ha), hother b (hne b hb)]
      exact hab (hsub a (hne a ha) hsa) (hsub b (hne b hb) hsb)
  · by_cases hkey : k = key
    · rw [hkey, hself]
      exact Nat.succ_pos _
    · rw [hother k hkey]
      exact h.used k (hsub k hkey hk)

theorem has_of_lookup (h : s.lookup key = some t) : s.Has key :=
  ⟨t, lookup_mem_triples h, lookup_key h⟩

theorem has_grow {g : Impl LRU} (hg : s.grow = .ok g) (k : KeyType) : g.Has k ↔ s.Has k := by
  simp only [Has, mem_grow_triples hg]

theorem has_push (h : 0 < s.dict.length) (hk : k ≠ key) (hs : (s.push key val size).Has k) :
    s.Has k := by
  obtain ⟨t, ht, rfl⟩ := hs
  rcases (mem_push_triples h).1 ht with rfl | ht
  exacts [absurd rfl hk, ⟨t, ht, rfl⟩]

theorem Deletes.has (h : s.Deletes key t s') (hk : s'.Has k) : s.Has k := by
  obtain ⟨u, hu, rfl⟩ := hk
  exact ⟨u, h.subset u hu, rfl⟩

theorem Deletes.not_has (h : s.Deletes key t s') (htidy : s.TidyAt key) (hgen : s.Genuine) :
    ¬ s'.Has key := by
  rintro ⟨u, hu, hk⟩
  exact hgen u (h.subset u hu) (htidy.lookup_of_deletes h hu hk)

theorem not_has_of_lookup (h : s.lookup key = none) (htidy : s.TidyAt key) (hgen : s.Genuine) :
    ¬ s.Has key := by
  rintro ⟨u, hu, hk⟩
  exact hgen u hu (htidy.eq_default (by simp [h]) hu hk)

theorem Recent.grow {g : Impl LRU} (h : Recent H s) (hg : s.grow = .ok g)
    (hkeep : ∀ t ∈ s.triples, s.KeepsFound t.key) : Recent H g := by
  obtain ⟨e, he, ho⟩ := h.ordered
  refine ⟨fun k => (h.tidyAt k).grow hg ?_, ?_, e, (grow_evictor hg).trans he, ?_⟩
  · intro hgr t hl hne
    obtain rfl := lookup_key hl
    exact hkeep t (lookup_mem_triples hl) hgr t hl hne
  · exact h.genuine.grow hg
  · exact ho.mono fun k => (has_grow hg k).1

theorem Recent.deletes (h : Recent H s) (hd : s.Deletes key t s') : Recent H s' := by
  obtain ⟨e, he, ho⟩ := h.ordered
  exact ⟨fun k => (h.tidyAt k).deletes hd, h.genuine.deletes hd, e, hd.frame.2.1.trans he,
    ho.mono fun k => hd.has⟩

theorem Recent.of_evictor (h : Recent H s) (ho : Ordered H s e) :
    Recent H { s with evictor := some e } :=
  ⟨fun k => (h.tidyAt k).of_evictor _, h.genuine, e, rfl, ho.mono fun _ => id⟩

/-- An activation that does not store a triple keeps the order. -/
theorem Activation.recent {ex : Exit} (h : s.Activation key val size ex s') (hs : Recent H s)
    (hkeep : ∀ t ∈ s.triples, s.KeepsFound t.key) (hex : ex ≠ .stored) : Recent H s' := by
  cases h with
  | stored => exact absurd rfl hex
  | @overwrites g g' t w hg _ _ hd =>
    -- `get` has moved the key to the front of the list; its triple is deleted all the same
    have hgr := hs.grow hg hkeep
    have hno : ¬ g'.Has key := hd.not_has (hgr.tidyAt key) hgr.genuine
    obtain ⟨e, he, ho⟩ := (hgr.deletes hd).ordered
    rw [touchKey, he]
    exact (hgr.deletes hd).of_evictor (ho.touch_of_not_has hno)
  | @evicts g g' e t hg _ he hd =>
    have hgr := hs.grow hg hkeep
    have hno : ¬ g'.Has (Evictor.evict e).1 := hd.not_has (hgr.tidyAt _) hgr.genuine
    obtain ⟨e', he', ho⟩ := (hgr.deletes hd).ordered
    obtain rfl : e = e' := Option.some.inj ((hd.frame.2.1.trans he).symm.trans he')
    exact (hgr.deletes hd).of_evictor (ho.evict hno)
  | @misses g e hg _ he hl =>
    have hgr := hs.grow hg hkeep
    have hno : ¬ g.Has (Evictor.evict e).1 := not_has_of_lookup hl (hgr.tidyAt _) hgr.genuine
    obtain ⟨e', he', ho⟩ := hgr.ordered
    obtain rfl : e = e' := Option.some.inj (he.symm.trans he')
    exact hgr.of_evictor (ho.evict hno)
  | refused hg => exact hs.grow hg hkeep

/-! ### The calls -/

/-- No growth of the table in the call hides a triple, and no placeholder is left. -/
structure Steady (s : Impl LRU) (o : Op) : Prop where
  keeps : s.EachActivation (fun a _ _ => ∀ t ∈ a.triples, a.KeepsFound t.key) o
  genuine : o.Genuine
  no_reset : o ≠ .reset

instance (s : Impl LRU) (o : Op) : Decidable (s.Steady o) :=
  decidable_of_iff (s.EachActivation (fun a _ _ => ∀ t ∈ a.triples, a.KeepsFound t.key) o ∧
      o.Genuine ∧ o ≠ .reset)
    ⟨fun ⟨hk, hg, hr⟩ => ⟨hk, hg, hr⟩, fun ⟨hk, hg, hr⟩ => ⟨hk, hg, hr⟩⟩

theorem Ordered.idle {c : Op × Result} (h : Ordered H s e) (huse : ∀ k, uses k c = false) :
    Ordered (c :: H) s e := by
  have hlast : ∀ k, lastUse k (c :: H) = lastUse k H := fun k => lastUse_of_not_uses (huse k)
  refine ⟨h.mem, ?_, fun k hk => ?_⟩
  · simpa only [hlast] using h.sorted
  · rw [hlast]
    exact h.used k hk

theorem Recent.idle {c : Op × Result} (h : Recent H s) (huse : ∀ k, uses k c = false) :
    Recent (c :: H) s :=
  ⟨h.tidyAt, h.genuine, h.ordered.imp fun _ ⟨he, ho⟩ => ⟨he, ho.idle huse⟩⟩

theorem Recent.entered {a : Impl LRU} (hs : Recent H s) (ho : s.Steady (.set key val size))
    (ha : (setLoop key val size).Entered s a) : Recent H a := by
  refine ha.invariant hs fun a ex a' ha hra hb hag => ?_
  refine (setBody_cases hb).recent hra (ho.keeps a ha) ?_
  rintro rfl
  cases hag

theorem Call.recent {o : Op} {r : Result} (h : s.Call o r s') (hs : Recent H s)
    (ho : s.Steady o) : Recent ((o, r) :: H) s' := by
  cases h with
  | @set key val size es s' hset =>
    by_cases hes : Exit.stored ∈ es
    · obtain ⟨a, g, ha, hg, hpos, -, hno, rfl⟩ := set_stored hset hes
      have hgr := (hs.entered ho ha).grow hg (ho.keeps a ha)
      obtain ⟨e, he, hord⟩ := hgr.ordered
      refine ⟨fun k => ((hgr.tidyAt k).push hpos hno).of_evictor _,
        hgr.genuine.push hpos ho.genuine, Evictor.touchKey e key, by simp [touchKey, push, he], ?_⟩
      exact hord.use (fun k => by simp [uses, hes, eq_comm]) fun k hk => has_push hpos hk
    · refine Recent.idle ?_ fun k => by simp [uses, hes]
      refine (set_ends hset).invariant hs fun a ex a' ha hex hra hb => ?_
      exact (setBody_cases hb).recent hra (ho.keeps a ha) fun h => hes (h ▸ hex)
  | get hget =>
    obtain ⟨-, ⟨-, rfl, -, rfl⟩ | ⟨t, w, -, -, rfl, -, rfl⟩⟩ := get_cases hget
    · exact hs.idle fun k => rfl
    · obtain ⟨e, he, hord⟩ := hs.ordered
      refine ⟨fun k => (hs.tidyAt k).of_evictor _, hs.genuine, _, by simp [touchKey, he]; rfl, ?_⟩
      exact hord.use (fun k => by simp [uses, eq_comm]) fun _ _ => id
  | del hdel =>
    obtain ⟨-, ⟨-, rfl, -⟩ | ⟨-, _, hd⟩⟩ := del_cases hdel
    · exact hs.idle fun k => rfl
    · exact (hs.deletes hd).idle fun k => rfl
  | spaceUsed => exact hs.idle fun k => rfl
  | reset => exact absurd rfl ho.no_reset

theorem Activation.has {ex : Exit} (h : s.Activation key val size ex s') (hk : k ≠ key)
    (hs' : s'.Has k) : s.Has k := by
  refine h.induction (P := fun a => a.Has k → s.Has k) (fun _ _ _ ha => ha) ?_ ?_ ?_ hs'
  · exact fun g hg => (has_grow hg k).1
  · exact fun g _ hgk hpos _ _ hk' => hgk (has_push hpos hk hk')
  · exact fun g _ _ _ _ hgk _ hd hk' => hgk (hd.has hk')

theorem has_of_ends {es : List Exit} (h : (setLoop key val size).Ends s es s') (hk : k ≠ key)
    (hs' : s'.Has k) : s.Has k :=
  h.invariant (P := fun a => a.Has k → s.Has k) id
    (fun _ _ _ _ _ ha hb hk' => ha ((setBody_cases hb).has hk hk')) hs'

/-- The key that the evictor hands out has been used before all other keys of the table. -/
theorem Ordered.evict_lt (h : Ordered H s e) (hev : s.Has (Evictor.evict e).1) (hk : s.Has k)
    (hne : k ≠ (Evictor.evict e).1) : lastUse (Evictor.evict e).1 H < lastUse k H := by
  have hmem := h.mem k hk
  obtain ⟨l, x, hl⟩ : ∃ l x, e.keys = l ++ [x] :=
    ⟨_, _, (List.dropLast_append_getLast (List.ne_nil_of_mem hmem)).symm⟩
  have hx : (Evictor.evict e).1 = x := by simp [LRU.evict_fst, hl]
  rw [hx] at hev hne ⊢
  have hsorted := h.sorted
  rw [hl, List.pairwise_append] at hsorted
  rw [hl, List.mem_append, List.mem_singleton] at hmem
  exact hsorted.2.2 k (hmem.resolve_right hne) x (by simp) hk hev

variable {maxmem : UInt32} {maxLoadFactor : FloatVal} {hasher : Option (KeyType → UInt64)}

theorem recent_of_reaches
    (h : (library LRU).Reaches Steady (new maxmem maxLoadFactor (some LRU.new) hasher) H s) :
    Recent H s := by
  refine h.invariant (I := Recent) ?_ fun H s o r s' hs ho hst => (step_cases hst).recent hs ho
  have hno : ∀ k, ¬ (new maxmem maxLoadFactor (some LRU.new) hasher).Has k := by
    rintro k ⟨t, ht, -⟩
    simp [new_triples] at ht
  exact ⟨fun k => .new _ _ _ _ k, new_genuine _ _ _ _, LRU.new, rfl,
    fun k hk => absurd hk (hno k), List.Pairwise.nil, fun k hk => absurd hk (hno k)⟩

/-- **The evicted key is the least recently used one.**  In a run in which no growth of the
table hides a triple, a call of `set` evicts a key only if every other key that `get` still
finds after the call has been used later. -/
theorem evicted_before {es : List Exit} {k₁ k₂ : KeyType} {n n' : UInt32} {v : CStr}
    {s'' : Impl LRU}
    (h : (library LRU).Reaches Steady (new maxmem maxLoadFactor (some LRU.new) hasher) H s)
    (ho : s.Steady (.set key val size)) (hset : s.set key val size = .ok (es, s'))
    (hk₁ : Exit.evicts k₁ ∈ es) (hk₂ : k₂ ≠ key) (hne : k₂ ≠ k₁)
    (hget : s'.get k₂ n = .ok (some v, n', s'')) :
    0 < lastUse k₁ H ∧ lastUse k₁ H < lastUse k₂ H := by
  have hs := recent_of_reaches h
  have hfound : s'.Has k₂ := by
    obtain ⟨-, ⟨-, hv, -⟩ | ⟨t, w, hl, -⟩⟩ := get_cases hget
    · cases hv
    · exact has_of_lookup hl
  obtain ⟨a, a', ha, hb, -, hmore⟩ := (set_ends hset).of_mem hk₁
  obtain ⟨es', hends, -⟩ := hmore rfl
  -- the key that is still there was there when the other one was evicted
  have hthere : a'.Has k₂ := has_of_ends hends hk₂ hfound
  cases setBody_cases hb with
  | @evicts g g' e t hg _ he hd =>
    have hgr := (hs.entered ho ha).grow hg (ho.keeps a ha)
    obtain ⟨e', he', hord⟩ := hgr.ordered
    obtain rfl : e = e' := Option.some.inj (he.symm.trans he')
    have hev : g.Has (Evictor.evict e).1 := has_of_lookup hd.lookup_eq
    exact ⟨hord.used _ hev, hord.evict_lt hev (hd.has hthere) hne⟩

/-- The key 1 has been read after the key 4 was stored, so the key 4 is evicted. -/
theorem evicted_before_read : ∃ H s, (library LRU).exec (small 5 (some LRU.new))
    [.set [1] (text "a") 2, .set [4] (text "b") 2, .get [1] 0] = some (H, s) ∧
    0 < lastUse [4] H ∧ lastUse [4] H < lastUse [1] H :=
  Machine.exists_exec ⟨_, _, rfl, by decide, _, _, _, rfl, rfl⟩ (by decide) fun _ s h
    (hD : s.Steady (.set [8] (text "c") 2) ∧ ∃ s' n' s'',
      s.set [8] (text "c") 2 = .ok ([.evicts [4], .stored], s') ∧
      s'.get [1] 0 = .ok (text "a", n', s'')) =>
    have ⟨ho, s', n', s'', hset, hget⟩ := hD
    evicted_before h ho hset (by decide) (by decide) (by decide) hget

/-- The key 2 has been used before the key 1.  It is hidden by a growth of the table, so that
the evictor forgets it in vain, and it is found again, after the next growth, when the key 1 is
evicted. -/
theorem evicted_after : ∃ H s, (library LRU).exec (small 10 (some LRU.new))
    [.set [2] (text "a") 1, .set [1] (text "b") 1, .set [3] (text "c") 1, .set [9] (text "d") 8,
      .set [5] (text "e") 1, .set [8] (text "f") 7, .get [2] 0] =
    some ((.get [2] 0, .get (text "a") 2) ::
      (.set [8] (text "f") 7, .set [.evicts [1], .stored]) :: H, s) ∧
    lastUse [2] H < lastUse [1] H :=
  ⟨_, _, rfl, by decide⟩

end Impl

end CrankItUp
