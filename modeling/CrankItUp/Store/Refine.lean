import CrankItUp.Cache.Placement
import CrankItUp.Cache.Accounting
import CrankItUp.Store.Basic

/-!
# The table refines the map

`Impl.view` forgets the table: of a cache it keeps the triples as a finite map, without the
placeholders that `reset` leaves behind.  Under the conditions below every call does to the
cache what it does to the view.

* `Impl.KeepsAll s` : if the table grows now, the number of buckets does not overflow, and every
  triple that a search finds is found afterwards.
* `Impl.Clean s k` : a search for `k` does not find a placeholder.
* `Impl.Regular s o` : the calls with these conditions, in which moreover every deletion
  subtracts the size that it frees (`Impl.FreesExactly`).
* `Impl.results_eq_store` : a client that only makes such calls cannot tell the cache from the
  map.
-/

namespace CrankItUp

/-- What the map keeps of a triple. -/
def Triple.entry (t : Triple) : Entry := ⟨t.size, t.val⟩

namespace Impl

variable {ε : Type} (s : Impl ε)

/-- The triples in the table as a finite map. -/
def view : Store ε where
  maxmem := s.maxmem
  entries := ((s.triples.filter fun t => t ≠ Triple.default).map fun t =>
    (⟨t.key, t.entry⟩ : Σ _ : KeyType, Entry)).toFinmap
  used := s.spaceUsed
  evictor := s.evictor

/-- The table has buckets, and for every key at most one triple, which a search finds. -/
structure Tidy : Prop where
  pos : 0 < s.dict.length
  tidyAt : ∀ key, s.TidyAt key

/-- If the table grows now, the number of buckets does not overflow, and nothing gets hidden. -/
def KeepsAll : Prop :=
  s.Grows → 2 * s.dict.length < 2 ^ 32 ∧ ∀ t ∈ s.triples, s.KeepsFound t.key

instance : Decidable s.KeepsAll := inferInstanceAs (Decidable (_ → _))

/-- A search for the key does not find a placeholder. -/
def Clean (key : KeyType) : Prop := s.lookup key ≠ some Triple.default

instance (key : KeyType) : Decidable (s.Clean key) := inferInstanceAs (Decidable (_ ≠ _))

variable {s} {s' g : Impl ε} {key k : KeyType} {val : ValType} {size : UInt32} {t : Triple}

/-! ### The view of a tidy table -/

theorem view_find_of_lookup (h : s.TidyAt key) (hl : s.lookup key = some t)
    (hne : t ≠ Triple.default) : s.view.find key = some t.entry := by
  rw [Store.find, view, Finmap.dlookup_list_toFinmap]
  have hmem : key ∈ ((s.triples.filter fun t => t ≠ Triple.default).map fun t =>
      (⟨t.key, t.entry⟩ : Σ _ : KeyType, Entry)).keys := by
    rw [List.mem_keys]
    exact ⟨t.entry, List.mem_map.2 ⟨t, by simp [lookup_mem_triples hl, hne],
      by rw [lookup_key hl]⟩⟩
  obtain ⟨x, hx⟩ := Option.isSome_iff_exists.1 (List.dlookup_isSome.2 hmem)
  obtain ⟨u, hu, he⟩ := List.mem_map.1 (List.of_mem_dlookup hx)
  obtain ⟨hu, hune⟩ : u ∈ s.triples ∧ u ≠ Triple.default := by simpa using hu
  cases he
  -- the triple in the map is the one that is found
  obtain rfl : u = t := Option.some.inj ((h.found u hu rfl hune).symm.trans hl)
  exact hx

theorem view_find_eq_none (h : s.TidyAt key) (hl : ∀ t ∈ s.lookup key, t = Triple.default) :
    s.view.find key = none := by
  rw [Store.find, view, Finmap.dlookup_list_toFinmap, List.dlookup_eq_none, List.mem_keys]
  rintro ⟨x, hx⟩
  obtain ⟨u, hu, he⟩ := List.mem_map.1 hx
  obtain ⟨hu, hune⟩ : u ∈ s.triples ∧ u ≠ Triple.default := by simpa using hu
  cases he
  exact hune (h.eq_default hl hu rfl)

theorem view_find (h : s.TidyAt key) (hc : s.Clean key) :
    s.view.find key = (s.lookup key).map Triple.entry := by
  cases hl : s.lookup key with
  | none => exact view_find_eq_none h (by simp [hl])
  | some t =>
    refine view_find_of_lookup h hl ?_
    rintro rfl
    exact hc hl

theorem KeepsAll.keepsFound (h : s.KeepsAll) (key : KeyType) : s.KeepsFound key := by
  intro hgr t hl hne
  have hk := (h hgr).2 t (lookup_mem_triples hl)
  rw [lookup_key hl] at hk
  exact hk hgr t hl hne

theorem exists_triple_of_find {x : Entry} (h : s.view.find key = some x) :
    ∃ t ∈ s.triples, t.key = key ∧ t.entry = x := by
  rw [Store.find, view, Finmap.dlookup_list_toFinmap] at h
  obtain ⟨t, ht, he⟩ := List.mem_map.1 (List.of_mem_dlookup h)
  cases he
  exact ⟨t, List.mem_of_mem_filter ht, rfl, rfl⟩

theorem view_find_congr (hs : s.TidyAt k) (hg : g.TidyAt k) (hl : g.lookup k = s.lookup k) :
    g.view.find k = s.view.find k := by
  by_cases hd : ∀ t ∈ s.lookup k, t = Triple.default
  · rw [view_find_eq_none hs hd, view_find_eq_none hg (hl ▸ hd)]
  · obtain ⟨t, ht, hne⟩ : ∃ t ∈ s.lookup k, t ≠ Triple.default := by simpa using hd
    rw [view_find_of_lookup hs ht hne, view_find_of_lookup hg (hl.trans ht) hne]

/-- Two caches have the same view if their triples are the same up to order. -/
theorem view_eq (hs : ∀ k, s.TidyAt k) (hg : ∀ k, g.TidyAt k) (hperm : g.triples.Perm s.triples)
    (hmax : g.maxmem = s.maxmem) (hused : g.spaceUsed = s.spaceUsed)
    (hev : g.evictor = s.evictor) : g.view = s.view := by
  refine Store.ext_find hmax (fun k => ?_) hused hev
  by_cases hl : ∀ t ∈ s.lookup k, t = Triple.default
  · rw [view_find_eq_none (hs k) hl, view_find_eq_none (hg k)]
    exact fun t ht => (hs k).eq_default hl (hperm.mem_iff.1 (lookup_mem_triples ht)) (lookup_key ht)
  · obtain ⟨t, ht, hne⟩ : ∃ t ∈ s.lookup k, t ≠ Triple.default := by simpa using hl
    rw [view_find_of_lookup (hs k) ht hne, view_find_of_lookup (hg k) _ hne]
    exact (hg k).found t (hperm.mem_iff.2 (lookup_mem_triples ht)) (lookup_key ht) hne

theorem Tidy.grow (h : s.Tidy) (hk : s.KeepsAll) :
    ∃ g, s.grow = .ok g ∧ g.Tidy ∧ g.view = s.view := by
  have hover : s.NoOverflow := fun hgr => (hk hgr).1
  obtain ⟨g, hg⟩ := grow_isOk h.pos hover
  have hpos := grow_length_pos hover hg
  have htidy : ∀ k, g.TidyAt k := fun k => (h.tidyAt k).grow hg (hk.keepsFound k)
  exact ⟨g, hg, ⟨hpos, htidy⟩, view_eq h.tidyAt htidy (grow_frame hg).2 (grow_maxmem hg)
    (grow_spaceUsed hg) (grow_evictor hg)⟩

theorem Tidy.push (h : s.Tidy) (hl : s.lookup key = none)
    (hval : (⟨key, size, val⟩ : Triple) ≠ Triple.default) :
    (s.push key val size).Tidy ∧ (s.push key val size).view = s.view.insert key ⟨size, val⟩ := by
  have htidy : ∀ k, (s.push key val size).TidyAt k := fun k => (h.tidyAt k).push h.pos hl
  refine ⟨⟨by simpa [Impl.push] using h.pos, htidy⟩, ?_⟩
  refine Store.ext_find rfl (fun k => ?_) rfl rfl
  by_cases hk : k = key
  · subst hk
    rw [Store.find_insert_self, view_find_of_lookup (htidy k) (push_lookup_self h.pos hl) hval]
    rfl
  · rw [Store.find_insert_ne hk]
    exact view_find_congr (h.tidyAt k) (htidy k) (push_lookup_ne hk)

theorem Tidy.deletes (h : s.Tidy) (hd : s.Deletes key t s') (hfree : s.FreesExactly key) :
    s'.Tidy ∧ s'.view = s.view.remove key t.entry := by
  have htidy : ∀ k, s'.TidyAt k := fun k => (h.tidyAt k).deletes hd
  refine ⟨⟨by rw [hd.frame.2.2.2]; exact h.pos, htidy⟩, ?_⟩
  obtain ⟨n, hn, hused⟩ := hd.exists_spaceUsed_eq hfree fun _ => rfl
  subst hn
  refine Store.ext_find hd.frame.1 (fun k => ?_) hused hd.frame.2.1
  by_cases hk : k = key
  · subst hk
    rw [Store.find_remove_self, view_find_eq_none (htidy k)]
    exact fun u hu => (h.tidyAt k).lookup_of_deletes hd (lookup_mem_triples hu) (lookup_key hu)
  · rw [Store.find_remove_ne hk]
    exact view_find_congr (h.tidyAt k) (htidy k) (hd.lookup_ne hk)

theorem Tidy.reset (h : s.Tidy) : s.reset.Tidy ∧ s.reset.view = s.view.clear := by
  refine ⟨⟨by simpa [Impl.reset] using h.pos, fun k => .reset k⟩, ?_⟩
  refine Store.ext_find rfl (fun k => ?_) rfl rfl
  rw [Store.find_clear, view_find_eq_none (.reset k)]
  exact fun t ht => mem_reset_triples (lookup_mem_triples ht)

theorem Tidy.new (maxmem : UInt32) (f : FloatVal) (e : Option ε)
    (hash : Option (KeyType → UInt64)) :
    (new maxmem f e hash).Tidy ∧ (new maxmem f e hash).view = Store.new maxmem e := by
  have htidy : ∀ k, (Impl.new maxmem f e hash).TidyAt k := fun k => .new _ _ _ _ k
  refine ⟨⟨by simp [Impl.new, defaultCapacity], htidy⟩, ?_⟩
  refine Store.ext_find rfl (fun k => ?_) rfl rfl
  rw [Store.find_new, view_find_eq_none (htidy k)]
  intro t ht
  have := lookup_mem_triples ht
  simp [new_triples] at this

theorem Tidy.of_evictor (h : s.Tidy) (e : Option ε) : { s with evictor := e }.Tidy :=
  ⟨h.pos, fun k => (h.tidyAt k).of_evictor e⟩

/-! ### The calls -/

section Evictor

variable [Evictor ε]

/-- A call whose effect on the cache is its effect on the view: growth hides nothing, no search
meets a placeholder, deletions free what they subtract, and no placeholder is stored. -/
structure Regular (s : Impl ε) (o : Op) : Prop where
  keeps : s.EachActivation (fun a _ _ => a.KeepsAll) o
  clean : s.EachSearch Clean o
  frees : s.EachDeletion FreesExactly o
  genuine : o.Genuine

instance (s : Impl ε) (o : Op) : Decidable (s.Regular o) :=
  decidable_of_iff (s.EachActivation (fun a _ _ => a.KeepsAll) o ∧ s.EachSearch Clean o ∧
      s.EachDeletion FreesExactly o ∧ o.Genuine)
    ⟨fun ⟨hk, hc, hf, hg⟩ => ⟨hk, hc, hf, hg⟩, fun ⟨hk, hc, hf, hg⟩ => ⟨hk, hc, hf, hg⟩⟩

/-- The cache is tidy and has the view. -/
def Shown (s : Impl ε) (st : Store ε) : Prop := s.Tidy ∧ s.view = st

theorem setBody_agree (h : s.Tidy) (hk : s.KeepsAll)
    (hc : ∀ g, s.grow = .ok g → ∀ k ∈ g.target key size, g.Clean k ∧ g.FreesExactly k)
    (hval : (⟨key, size, val⟩ : Triple) ≠ Triple.default) :
    Agree Shown (s.setBody key val size) (s.view.setBody key val size) := by
  obtain ⟨g, hg, htidy, hview⟩ := h.grow hk
  rw [← hview]
  have hfits : g.view.Fits size ↔ g.Fits size := Iff.rfl
  -- a null pointer under the key ends both activations; otherwise both return
  by_cases hnull : g.Fits size ∧ ∃ t, g.lookup key = some t ∧ t.val = none
  · obtain ⟨hfit, t, hl, hv⟩ := hnull
    have hf := view_find (htidy.tidyAt key) (hc g hg key (target_of_fits hfit)).1
    rw [hl] at hf
    rw [setBody_of_null hg htidy.pos hfit hl hv, Store.setBody_of_null (hfits.2 hfit) hf hv]
    exact rfl
  · obtain ⟨⟨e, s'⟩, hb⟩ : ∃ p, s.setBody key val size = .ok p :=
      setBody_isOk hg htidy.pos fun hfit t hl hv => hnull ⟨hfit, t, hl, hv⟩
    rw [hb]
    cases setBody_cases hb with
    | @stored g' hg' _ hfit hl =>
      obtain rfl : g = g' := Except.ok.inj (hg.symm.trans hg')
      have hf := view_find (htidy.tidyAt key) (hc g hg key (target_of_fits hfit)).1
      rw [hl] at hf
      rw [Store.setBody_of_fits (hfits.2 hfit) hf]
      obtain ⟨ht, hv⟩ := htidy.push hl hval
      exact ⟨rfl, ht.of_evictor _, congrArg (fun st => st.touchKey key) hv⟩
    | @overwrites g' _ t w hg' hfit hw hd =>
      obtain rfl : g = g' := Except.ok.inj (hg.symm.trans hg')
      obtain ⟨hclean, hfree⟩ := hc g hg key (target_of_fits hfit)
      have hf := view_find (htidy.tidyAt key) hclean
      rw [hd.lookup_eq] at hf
      rw [Store.setBody_of_present (hfits.2 hfit) hf hw]
      obtain ⟨ht, hv⟩ := htidy.deletes hd hfree
      exact ⟨rfl, ht.of_evictor _, congrArg (fun st => st.touchKey key) hv⟩
    | @evicts g' _ e t hg' hfit he hd =>
      obtain rfl : g = g' := Except.ok.inj (hg.symm.trans hg')
      obtain ⟨hclean, hfree⟩ := hc g hg _ (target_of_not_fits hfit he)
      have hf := view_find (htidy.tidyAt _) hclean
      rw [hd.lookup_eq] at hf
      rw [Store.setBody_of_evicts (mt hfits.1 hfit) he hf]
      obtain ⟨ht, hv⟩ := htidy.deletes hd hfree
      exact ⟨rfl, ht.of_evictor _, congrArg (fun st : Store ε =>
        { st with evictor := some (Evictor.evict e).2 }) hv⟩
    | @misses g' e hg' hfit he hl =>
      obtain rfl : g = g' := Except.ok.inj (hg.symm.trans hg')
      have hf := view_find (htidy.tidyAt _) (hc g hg _ (target_of_not_fits hfit he)).1
      rw [hl] at hf
      rw [Store.setBody_of_misses (mt hfits.1 hfit) he hf]
      exact ⟨rfl, htidy.of_evictor _, rfl⟩
    | refused hg' hfit he =>
      obtain rfl := Except.ok.inj (hg.symm.trans hg')
      rw [Store.setBody_of_refused (mt hfits.1 hfit) he]
      exact ⟨rfl, htidy, rfl⟩

theorem Regular.body_agree (hr : s.Regular (.set key val size)) (a : Impl ε) (b : Store ε)
    (ha : (setLoop key val size).Entered s a) (hb : Shown a b) :
    Agree Shown ((setLoop key val size).body a) ((Store.setLoop key val size).body b) := by
  obtain ⟨ht, rfl⟩ := hb
  exact setBody_agree ht (hr.keeps a ha)
    (fun g hg k hmem => ⟨hr.clean a ha g hg k hmem, hr.frees a ha g hg k hmem⟩) hr.genuine

theorem set_agree (h : s.Tidy) (hr : s.Regular (.set key val size)) :
    Agree Shown (s.set key val size) (s.view.set key val size) := by
  -- both recursions are given the same, sufficient number of activations
  rw [set_eq_run (n := s.triples.length + s.view.entries.keys.card + 1) (by omega),
    Store.set_eq_run (m := s.triples.length + s.view.entries.keys.card + 1) (by omega)]
  exact Loop.agree_run (Q := Shown) rfl _ ⟨h, rfl⟩ fun a b ha _ hab => hr.body_agree a b ha hab

theorem set_of_ends (h : s.Tidy) (hr : s.Regular (.set key val size)) {es : List Exit}
    {st' : Store ε} (hends : (Store.setLoop key val size).Ends s.view es st') :
    ∃ s', s.set key val size = .ok (es, s') ∧ s'.Tidy ∧ s'.view = st' := by
  have hag := set_agree h hr
  rw [Store.set, hends.run_eq (μ := fun a => a.entries.keys.card)
    (fun _ _ => Store.card_of_calls) _ (Nat.lt_succ_self _)] at hag
  obtain ⟨f, -, hf⟩ | ⟨es', s', st'', hset, hst, htidy, hview⟩ := agree_iff.1 hag
  · cases hf
  · cases hst
    exact ⟨s', hset, htidy, hview⟩

/-- Every activation of `set` on the view is the view of an activation of `set`. -/
theorem entered_view (h : s.Tidy) (hr : s.Regular (.set key val size)) {b : Store ε}
    (hb : (Store.setLoop key val size).Entered s.view b) :
    ∃ a, (setLoop key val size).Entered s a ∧ a.Tidy ∧ a.view = b :=
  Loop.entered_of_agree (Q := Shown) rfl ⟨h, rfl⟩ hb hr.body_agree

theorem get_view (h : s.Tidy) (hc : s.Clean key) (n : UInt32) : s.view.get key n =
    (s.get key n).map fun (val, valSize, s') => (val, valSize, s'.view) := by
  rw [Store.get, view_find (h.tidyAt key) hc, get_eq h.pos]
  cases s.lookup key with
  | none => rfl
  | some t => cases hv : t.val <;> simp only [Option.map_some, Triple.entry, hv] <;> rfl

/-- **The cache refines the map.**  A regular call returns the same from a tidy cache as from
its view, and leaves a tidy cache and its view. -/
theorem step_agree (h : s.Tidy) {o : Op} (hr : s.Regular o) :
    Agree Shown (s.step o) (s.view.step o) := by
  cases o with
  | set key val size =>
    simp only [step, Store.step]
    obtain ⟨f, hs, hv⟩ | ⟨es, s', st', hs, hv, hshown⟩ := agree_iff.1 (set_agree h hr)
    · rw [hs, hv]
      exact rfl
    · rw [hs, hv]
      exact ⟨rfl, hshown⟩
  | get key n =>
    simp only [step, Store.step, get_view h hr.clean]
    cases hg : s.get key n with
    | error f => exact rfl
    | ok p =>
      obtain ⟨v, n', s'⟩ := p
      obtain ⟨-, ⟨-, -, -, rfl⟩ | ⟨_, _, -, -, -, -, rfl⟩⟩ := get_cases hg
      · exact ⟨rfl, h, rfl⟩
      · exact ⟨rfl, h.of_evictor _, rfl⟩
  | del key =>
    obtain ⟨⟨b, s'⟩, hd⟩ := del_isOk h.pos key
    have hf := view_find (h.tidyAt key) hr.clean
    simp only [step, Store.step, Store.del, hd]
    obtain ⟨-, ⟨rfl, rfl, hno⟩ | ⟨rfl, t, hdel⟩⟩ := del_cases hd
    · rw [hno] at hf
      simp only [hf, Option.map_none]
      exact ⟨rfl, h, rfl⟩
    · rw [hdel.lookup_eq] at hf
      simp only [hf, Option.map_some]
      exact ⟨rfl, h.deletes hdel hr.frees⟩
  | spaceUsed => exact ⟨rfl, h, rfl⟩
  | reset => exact ⟨rfl, h.reset⟩

/-- **A client cannot tell the cache from the map** by calls that are regular. -/
theorem results_eq_store (h : s.Tidy) {os : List Op} (hr : (library ε).Guarded Regular s os) :
    (library ε).results s os = (store ε).results s.view os := by
  refine Machine.results_eq_of_agree (Q := Shown) ?_ os s s.view
    ⟨h, rfl⟩ hr (Machine.guarded_true _ _)
  rintro s _ o ⟨h, rfl⟩ ho -
  exact step_agree h ho

end Evictor

end Impl

end CrankItUp
