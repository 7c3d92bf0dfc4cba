import CrankItUp.Store.Admission

/-!
# Overwriting a value

`set` tests whether the new value fits before it gives the old one up.

* `Store.exists_ends_overwriting` : if the sizes of all other values leave room for the new one, and
  the test passes or the key itself is evicted first, then only the key's own entry is replaced.
* `Store.find_ne_none_of_ends` : a key that is evicted in the course of a `set` is gone after it.
* `Impl.overwrite_iff` : a regular call of `set` that would leave the cache within its limit
  replaces a value in place exactly if the new one fits next to the old one, or the evictor's next
  key is the key itself.
-/

namespace CrankItUp

namespace Store

variable {ε : Type} {st st' : Store ε} {key k : KeyType} {val : ValType} {size : UInt32} {x : Entry}
  {es : List Exit}

variable [EvictionOrder ε] {e : ε}

theorem setBody_isOk (hn : st.Valued key) : ∃ p, st.setBody key val size = .ok p := by
  by_cases hfit : st.Fits size
  · cases hf : st.find key with
    | none => exact ⟨_, setBody_of_fits hfit hf⟩
    | some x =>
      obtain ⟨w, hw⟩ := Option.ne_none_iff_exists'.1 (hn x hf)
      exact ⟨_, setBody_of_present hfit hf hw⟩
  · cases he : st.evictor with
    | none => exact ⟨_, setBody_of_refused hfit he⟩
    | some e =>
      cases hf : st.find (Evictor.evict e).1 with
      | none => exact ⟨_, setBody_of_misses hfit he hf⟩
      | some x => exact ⟨_, setBody_of_evicts hfit he hf⟩

theorem exists_ends_of_valued (hn : st.Valued key) (hval : val ≠ none) :
    ∃ es st', (setLoop key val size).Ends st es st' := by
  obtain ⟨⟨es, st'⟩, h⟩ : ∃ p, (setLoop key val size).run .deep (st.entries.keys.card + 1) st =
      .ok p := by
    refine Loop.run_ok (μ := fun a => a.entries.keys.card) (fun _ _ => card_of_calls) _ _
      (Nat.lt_succ_self _) fun a ha => setBody_isOk ?_
    exact ha.invariant hn fun _ _ _ _ han hb _ => (setBody_cases hb).valued han hval
  exact ⟨es, st', Loop.ends_of_run h⟩

theorem find_ne_none_of_ends (h : (setLoop key val size).Ends st es st') (hk : k ≠ key)
    (hf : st'.find k ≠ none) : st.find k ≠ none := by
  refine h.invariant (P := fun a => a.find k ≠ none → st.find k ≠ none) id ?_ hf
  intro a e a' _ _ ha hb hf
  refine ha ?_
  cases setBody_cases hb with
  | stored => rwa [touchKey_find, find_insert_ne hk] at hf
  | @overwrites x => exact (find_remove_ne_none (x := x) hf).2
  | @evicts e x => exact (find_remove_ne_none (x := x) hf).2
  | misses => exact hf
  | refused => exact hf

theorem ends_stored (hfit : st.Fits size) (hf : st.find key = none) :
    (setLoop key val size).Ends st [.stored] ((st.insert key ⟨size, val⟩).touchKey key) :=
  .last (setBody_of_fits hfit hf) rfl

/-- If the new value fits in the place of the old one, and it fits next to it, or the key itself is
the first to be evicted, then nothing but the entry of the key changes. -/
theorem exists_ends_overwriting (val : ValType) (hf : st.find key = some x) (hx : x.val ≠ none)
    (hroom : (st.remove key x).Fits size)
    (hcase : st.Fits size ∨ ∃ e, st.evictor = some e ∧ (Evictor.evict e).1 = key) :
    ∃ ex st', (ex = .overwrites ∨ ex = .evicts key) ∧
      (setLoop key val size).Ends st [ex, .stored] st' ∧
      (∀ k, k ≠ key → st'.find k = st.find k) ∧ st'.used = st.used - x.size + size := by
  by_cases hfit : st.Fits size
  · obtain ⟨w, hw⟩ := Option.ne_none_iff_exists'.1 hx
    refine ⟨_, _, .inl rfl, .more (setBody_of_present hfit hf hw) rfl
      (ends_stored hroom (find_remove_self (x := x))), fun k hk => ?_, rfl⟩
    rw [touchKey_find, find_insert_ne hk, touchKey_find, find_remove_ne hk]
  · obtain ⟨e, he, rfl⟩ := hcase.resolve_left hfit
    refine ⟨_, _, .inr rfl, .more (setBody_of_evicts hfit he hf) rfl
      (ends_stored hroom (find_remove_self (x := x))), fun k hk => ?_, rfl⟩
    rw [touchKey_find, find_insert_ne hk]
    exact find_remove_ne (x := x) hk

theorem find_evict_of_ends (h : (setLoop key val size).Ends st es st') (hfit : ¬ st.Fits size)
    (he : st.evictor = some e) (hne : (Evictor.evict e).1 ≠ key) :
    st'.find (Evictor.evict e).1 = none := by
  by_contra hf
  obtain ⟨x, hx⟩ := Option.ne_none_iff_exists'.1 (find_ne_none_of_ends h hne hf)
  obtain ⟨es', -, hrest⟩ := h.tail (setBody_of_evicts hfit he hx) rfl
  exact find_ne_none_of_ends hrest hne hf (find_remove_self (x := x))

end Store

namespace Impl

variable {ε : Type} [EvictionOrder ε] {s s' : Impl ε} {key k : KeyType} {val : ValType}
  {size : UInt32} {es : List Exit}

theorem lookup_default_of_ends (h : (setLoop key val size).Ends s es s')
    (hk : k ≠ key) (hes : ∀ k', Exit.evicts k' ∈ es → k' = key)
    (hkeep : s.EachActivation (fun a _ _ => a.KeepsPlaceholder) (.set key val size)) :
    s'.lookup k = some Triple.default ↔ s.lookup k = some Triple.default := by
  refine h.invariant
    (P := fun a => a.lookup k = some Triple.default ↔ s.lookup k = some Triple.default) Iff.rfl ?_
  intro a e a' ha he hiff hb
  have hgrow : ∀ g, a.grow = .ok g →
      (g.lookup k = some Triple.default ↔ s.lookup k = some Triple.default) := fun g hg =>
    (grow_placeholder hg (hkeep a ha) k).trans hiff
  cases setBody_cases hb with
  | stored hg _ _ _ =>
    rw [touchKey_lookup, push_lookup_ne hk]
    exact hgrow _ hg
  | overwrites hg _ _ hd =>
    rw [touchKey_lookup, hd.lookup_ne hk]
    exact hgrow _ hg
  | @evicts g g' e t hg _ _ hd =>
    obtain rfl := hes _ he
    rw [← hgrow _ hg, ← hd.lookup_ne hk]
    rfl
  | @misses g e hg => exact hgrow g hg
  | refused hg => exact hgrow _ hg

omit [EvictionOrder ε] in
theorem spaceUsed_replace {s₀ : UInt32} (hle : s₀ ≤ s.spaceUsed)
    (hroom : s.spaceUsed.toNat - s₀.toNat + size.toNat ≤ s.maxmem.toNat) :
    s.spaceUsed - s₀ + size ≤ s.maxmem ∧
      (s.spaceUsed - s₀ + size).toNat + s₀.toNat = s.spaceUsed.toNat + size.toNat := by
  have hsub := UInt32.toNat_sub_of_le _ _ hle
  have hlt := s.maxmem.toNat_lt
  have hadd : (s.spaceUsed - s₀ + size).toNat = s.spaceUsed.toNat - s₀.toNat + size.toNat := by
    rw [UInt32.toNat_add, hsub, Nat.mod_eq_of_lt (by omega)]
  rw [UInt32.le_iff_toNat_le] at hle ⊢
  omega

/-- A `set` that has to evict, and does not begin with its own key, gives up or changes what `get`
returns for another key. -/
theorem Ready.seen_ne_of_ends (hs : s.Ready) (htidy : s'.Tidy) (hempty : s.view.Valued [])
    (hends : (Store.setLoop key val size).Ends s.view es s'.view) (hfit : ¬ s.Fits size)
    (hhead : s.view.queue.head? ≠ some key) (hes : Exit.stored ∈ es) :
    ¬ ∀ k, k ≠ key → ∀ n, s'.seen k n = s.seen k n := by
  intro hseen
  by_cases hnone : ∀ k ∈ s.view.queue.head?, s.view.find k = none
  · -- the evictor has no key that could be removed, and `set` gives up
    obtain ⟨⟨ex, rfl, hex⟩, -⟩ := Store.eq_of_ends hends hs.covered hfit hnone
    exact hex (List.mem_singleton.1 hes).symm
  · -- another key is removed first, and `get` returns nothing for it after the call
    obtain ⟨k, hk, hfk⟩ : ∃ k ∈ s.view.queue.head?, s.view.find k ≠ none := by
      simpa using hnone
    have hne : k ≠ key := by
      rintro rfl
      exact hhead hk
    obtain ⟨ks, hq⟩ := List.head?_eq_some_iff.1 hk
    obtain ⟨e, he, rfl, -⟩ := Store.evictor_of_queue hq
    exact find_ne_none_of_seen hs.tidy htidy hempty (hseen _ hne) hfk
      (Store.find_evict_of_ends hends hfit he hne)

variable {maxmem : UInt32} {maxLoadFactor : FloatVal} {evictor : Option ε}
  {hasher : Option (KeyType → UInt64)} {H : List (Op × Result)}

/-- **Overwriting.**  In every state that accurate calls lead to, where the empty key does not have
a null pointer, let a new value take no more than the limit in the place of the old one.  A regular
call of `set` stores it, leaves what `get` returns for all other keys, and changes `spaceUsed` by
the difference of the sizes exactly if the value fits next to the old one, or the next key of the
evictor's queue is the key itself. -/
theorem overwrite_iff {v w : CStr} {s₀ : UInt32}
    (h : (library ε).Reaches Accurate (new maxmem maxLoadFactor evictor hasher) H s)
    (hempty : s.view.Valued []) (hl : s.lookup k = some ⟨k, s₀, some w⟩)
    (hroom : s.spaceUsed.toNat - s₀.toNat + size.toNat ≤ s.maxmem.toNat)
    (ho : s.Regular (.set k (some v) size))
    (hkeep : s.EachActivation (fun a _ _ => a.KeepsPlaceholder) (.set k (some v) size)) :
    ∃ es s', s.set k (some v) size = .ok (es, s') ∧
      (((Exit.stored ∈ es ∧ ∀ n, ∃ n' s'', s'.get k n = .ok (some v, n', s'')) ∧
          (∀ k', k' ≠ k → ∀ n, s'.seen k' n = s.seen k' n) ∧
          s'.spaceUsed.toNat + s₀.toNat = s.spaceUsed.toNat + size.toNat) ↔
        s.Fits size ∨ s.view.queue.head? = some k) := by
  have hs := ready_of_reaches h
  have hf : s.view.find k = some ⟨s₀, some w⟩ :=
    view_find_of_lookup (hs.tidy.tidyAt k) hl (by simp [Triple.default])
  obtain ⟨hfits, hsum⟩ := spaceUsed_replace (hs.counted.size_le (lookup_mem_triples hl)) hroom
  by_cases hcase : s.Fits size ∨ s.view.queue.head? = some k
  · have hfirst : s.view.Fits size ∨ ∃ e, s.view.evictor = some e ∧ (Evictor.evict e).1 = k := by
      refine hcase.imp_right fun hhead => ?_
      obtain ⟨ks, hq⟩ := List.head?_eq_some_iff.1 hhead
      obtain ⟨e, he, hfst, -⟩ := Store.evictor_of_queue hq
      exact ⟨e, he, hfst⟩
    obtain ⟨ex, st', hex, hends, hfind, hused⟩ :=
      Store.exists_ends_overwriting (some v) hf (by simp) hfits hfirst
    obtain ⟨s', hset, htidy, rfl⟩ := set_of_ends hs.tidy ho hends
    refine ⟨_, s', hset, iff_of_true ⟨⟨by simp, ?_⟩, fun k' hk' => ?_, ?_⟩ hcase⟩
    · exact get_of_stored hset (by simp)
    · refine seen_eq_of_find hs.tidy htidy (hfind k' hk') ?_
      refine lookup_default_of_ends (set_ends hset) hk' (fun k'' hk'' => ?_) hkeep
      rcases hex with rfl | rfl <;> simp_all
    · exact (congrArg (fun n => n.toNat + s₀.toNat) hused).trans hsum
  · obtain ⟨hfit, hhead⟩ := not_or.1 hcase
    have hn : s.view.Valued k := by
      intro x hx
      cases hf.symm.trans hx
      exact Option.some_ne_none w
    obtain ⟨es, st', hends⟩ : ∃ es st', (Store.setLoop k (some v) size).Ends s.view es st' :=
      Store.exists_ends_of_valued hn (by simp)
    obtain ⟨s', hset, htidy, rfl⟩ := set_of_ends hs.tidy ho hends
    refine ⟨es, s', hset, iff_of_false ?_ hcase⟩
    rintro ⟨⟨hes, -⟩, hseen, -⟩
    exact hs.seen_ne_of_ends htidy hempty hends hfit hhead hes hseen

/-- In a full cache, the key 1 is the next one to be evicted. -/
theorem overwrite_full : ∃ H s, (library LRU).exec (small 4 (some LRU.new))
    [.set [1] (text "a") 2, .set [4] (text "b") 2] = some (H, s) ∧
    ∃ es s', s.set [1] (text "c") 2 = .ok (es, s') ∧
      ∀ k', k' ≠ [1] → ∀ n, s'.seen k' n = s.seen k' n :=
  Machine.exists_exec ⟨_, _, rfl, by decide⟩ (by decide) fun _ s h
    (hs : s.view.Valued [] ∧ s.lookup [1] = some ⟨[1], 2, text "a"⟩ ∧
      s.spaceUsed.toNat - (2 : UInt32).toNat + (2 : UInt32).toNat ≤ s.maxmem.toNat ∧
      s.Regular (.set [1] (text "c") 2) ∧
      s.EachActivation (fun a _ _ => a.KeepsPlaceholder) (.set [1] (text "c") 2) ∧
      s.view.queue.head? = some [1]) =>
    have ⟨es, s', hset, hiff⟩ := overwrite_iff h hs.1 hs.2.1 hs.2.2.1 hs.2.2.2.1 hs.2.2.2.2.1
    ⟨es, s', hset, (hiff.2 (.inr hs.2.2.2.2.2)).2.1⟩

/-- In a full cache, the key 1 is evicted for a new value of the key 4. -/
theorem overwrite_evicting : ∃ s, (library LRU).exec (small 4 (some LRU.new))
    [.set [1] (text "a") 2, .set [4] (text "b") 2, .get [4] 0, .spaceUsed,
      .set [4] (text "c") 2, .get [1] 0, .spaceUsed] = some (
    [(.spaceUsed, .spaceUsed 2), (.get [1] 0, .get none 0),
      (.set [4] (text "c") 2, .set [.evicts [1], .overwrites, .stored]),
      (.spaceUsed, .spaceUsed 4), (.get [4] 0, .get (text "b") 2),
      (.set [4] (text "b") 2, .set [.stored]), (.set [1] (text "a") 2, .set [.stored])], s) :=
  ⟨_, rfl⟩

end Impl

end CrankItUp
