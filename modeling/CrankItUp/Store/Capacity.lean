import CrankItUp.Store.Observe

/-!
# A cache with room for everything

If there is room for one value more than there are keys in use, nothing is ever evicted, whatever
the evictor does.  `set` asks for the room of the new value next to the old one, which is why it
takes one more.

* `Impl.Stock keys w s` : the cache is tidy and its counter exact, its keys are among `keys`, and
  its values take at most `w` bytes each.
* `Impl.Stock.activation` : with enough memory an activation of `set` stores or overwrites.
* `lastEntry k H` : what the last call with the key `k` leaves under it.
* `Impl.lookup_eq_lastEntry` : over every run of plain calls the cache holds exactly that.
-/

namespace CrankItUp

/-- The triple has one of the keys, a value, and a size of at most `w`. -/
structure Triple.Modest (keys : List KeyType) (w : ℕ) (t : Triple) : Prop where
  key_mem : t.key ∈ keys
  size_le : t.size.toNat ≤ w
  val_ne : t.val ≠ none

instance (keys : List KeyType) (w : ℕ) (t : Triple) : Decidable (t.Modest keys w) :=
  decidable_of_iff (t.key ∈ keys ∧ t.size.toNat ≤ w ∧ t.val ≠ none)
    ⟨fun ⟨hk, hs, hv⟩ => ⟨hk, hs, hv⟩, fun ⟨hk, hs, hv⟩ => ⟨hk, hs, hv⟩⟩

/-- What the call stores, if it stores something, is modest. -/
def Op.Modest (keys : List KeyType) (w : ℕ) : Op → Prop
  | .set key val size => Triple.Modest keys w ⟨key, size, val⟩
  | _ => True

instance (keys : List KeyType) (w : ℕ) : ∀ o : Op, Decidable (o.Modest keys w)
  | .set _ _ _ => inferInstanceAs (Decidable (Triple.Modest _ _ _))
  | .get _ _ | .del _ | .spaceUsed | .reset => isTrue trivial

/-- What the last `set` or `del` of the key leaves under it. -/
def lastEntry (k : KeyType) : List (Op × Result) → Option Entry
  | [] => none
  | (.set key val size, _) :: H => if key = k then some ⟨size, val⟩ else lastEntry k H
  | (.del key, _) :: H => if key = k then none else lastEntry k H
  | (.reset, _) :: _ => none
  | _ :: H => lastEntry k H

namespace Impl

variable {ε : Type} {s s' g : Impl ε} {keys : List KeyType} {w : ℕ} {key k : KeyType}
  {val : ValType} {size : UInt32} {t : Triple}

/-- The cache is tidy, its counter is exact, and its triples are modest. -/
structure Stock (keys : List KeyType) (w : ℕ) (s : Impl ε) : Prop where
  tidy : s.Tidy
  counted : s.Counted
  modest : ∀ t ∈ s.triples, t.Modest keys w

namespace Stock

theorem genuine (h : s.Stock keys w) : s.Genuine := by
  rintro t ht rfl
  exact (h.modest _ ht).val_ne rfl

theorem of_evictor (h : s.Stock keys w) (e : Option ε) :
    Stock keys w { s with evictor := e } :=
  ⟨h.tidy.of_evictor e, h.counted.of_evictor e, h.modest⟩

theorem length_le (h : s.Stock keys w) : s.triples.length ≤ keys.length := by
  have hnodup : (s.triples.map Triple.key).Nodup := by
    refine List.nodup_iff_count_le_one.2 fun k => ?_
    refine le_trans ?_ (h.tidy.tidyAt k).single
    rw [List.count, List.countP_map]
    refine List.countP_mono_left fun t ht hk => ?_
    exact decide_eq_true ⟨eq_of_beq hk, h.genuine t ht⟩
  have hsub : s.triples.map Triple.key ⊆ keys := by
    intro k hk
    obtain ⟨t, ht, rfl⟩ := List.mem_map.1 hk
    exact (h.modest t ht).key_mem
  rw [← List.length_map (f := Triple.key)]
  exact (List.subperm_of_subset hnodup hsub).length_le

theorem spaceUsed_le (h : s.Stock keys w) : s.spaceUsed.toNat ≤ keys.length * w := by
  rw [h.counted.eq_total, total]
  calc (s.triples.map fun t => t.size.toNat).sum
      ≤ (s.triples.map fun t => t.size.toNat).length • w := by
        refine List.sum_le_card_nsmul _ _ fun n hn => ?_
        obtain ⟨t, ht, rfl⟩ := List.mem_map.1 hn
        exact (h.modest t ht).size_le
    _ = s.triples.length * w := by
        rw [List.length_map]
        rfl
    _ ≤ keys.length * w := Nat.mul_le_mul_right w h.length_le

theorem room (h : s.Stock keys w) (hcap : (keys.length + 1) * w ≤ s.maxmem.toNat)
    (hsize : size.toNat ≤ w) : s.Fits size ∧ s.FitsUnwrapped size := by
  have hused := h.spaceUsed_le
  have hlt := s.maxmem.toNat_lt
  rw [Nat.succ_mul] at hcap
  have hsum : s.spaceUsed.toNat + size.toNat < 2 ^ 32 := by omega
  refine ⟨?_, fun _ => hsum⟩
  rw [Fits, UInt32.le_iff_toNat_le, UInt32.toNat_add, Nat.mod_eq_of_lt hsum]
  omega

theorem grow (h : s.Stock keys w) (hk : s.KeepsAll) (hg : s.grow = .ok g) :
    g.Stock keys w ∧ g.view = s.view := by
  obtain ⟨g', hg', htidy, hview⟩ := h.tidy.grow hk
  cases hg.symm.trans hg'
  exact ⟨⟨htidy, h.counted.grow hg, fun t ht => h.modest t ((mem_grow_triples hg).1 ht)⟩, hview⟩

theorem push (h : s.Stock keys w) (hl : s.lookup key = none) (hfit : s.Fits size)
    (hsum : s.FitsUnwrapped size) (hm : Triple.Modest keys w ⟨key, size, val⟩) :
    (s.push key val size).Stock keys w ∧
      (s.push key val size).view = s.view.insert key ⟨size, val⟩ := by
  have hval : (⟨key, size, val⟩ : Triple) ≠ Triple.default := fun heq =>
    hm.val_ne (congrArg Triple.val heq)
  obtain ⟨htidy, hview⟩ := h.tidy.push hl hval
  refine ⟨⟨htidy, h.counted.push h.tidy.pos hfit hsum, fun t ht => ?_⟩, hview⟩
  rcases (mem_push_triples h.tidy.pos).1 ht with rfl | ht
  exacts [hm, h.modest t ht]

theorem deletes (h : s.Stock keys w) (hd : s.Deletes key t s') (hfree : s.FreesExactly key) :
    s'.Stock keys w ∧ s'.view = s.view.remove key t.entry := by
  obtain ⟨htidy, hview⟩ := h.tidy.deletes hd hfree
  exact ⟨⟨htidy, h.counted.deletes hd hfree, fun t ht => h.modest t (hd.subset t ht)⟩, hview⟩

end Stock

theorem stock_new (maxmem : UInt32) (f : FloatVal) (e : Option ε)
    (hash : Option (KeyType → UInt64)) : (new maxmem f e hash).Stock keys w :=
  ⟨(Tidy.new maxmem f e hash).1, counted_new maxmem f e hash, fun t ht => by
    rw [new_triples] at ht
    cases ht⟩

/-! ### The calls -/

section Evictor

variable [Evictor ε] {e : Exit} {es : List Exit} {o : Op} {r : Result}

theorem Activation.maxmem_eq (h : s.Activation key val size e s') : s'.maxmem = s.maxmem :=
  h.induction (P := fun a => a.maxmem = s.maxmem) (fun _ _ _ ha => ha)
    (fun _ hg => grow_maxmem hg) (fun _ _ hmax _ _ _ => hmax)
    fun _ _ _ _ _ hmax _ hd => hd.frame.1.trans hmax

theorem Stock.activation (h : s.Stock keys w) (ha : s.Activation key val size e s')
    (hcap : (keys.length + 1) * w ≤ s.maxmem.toNat) (hm : Triple.Modest keys w ⟨key, size, val⟩)
    (hk : s.KeepsAll) (hfree : ∀ g, s.grow = .ok g → ∀ k ∈ g.target key size, g.FreesExactly k) :
    s'.Stock keys w ∧ (∀ k, k ≠ key → s'.view.find k = s.view.find k) ∧
      ((e = .stored ∧ s'.view.find key = some ⟨size, val⟩) ∨
        (e = .overwrites ∧ s.view.find key ≠ none ∧ s'.view.find key = none)) := by
  have hfits : ∀ g, s.grow = .ok g → g.Fits size ∧ g.FitsUnwrapped size := fun g hg =>
    (h.grow hk hg).1.room (by rwa [grow_maxmem hg]) hm.size_le
  cases ha with
  | stored hg _ hfit hl =>
    obtain ⟨hgs, hview⟩ := h.grow hk hg
    obtain ⟨hs', hview'⟩ := hgs.push hl hfit (hfits _ hg).2 hm
    rw [hview] at hview'
    refine ⟨hs'.of_evictor _, fun k hne => ?_, .inl ⟨rfl, ?_⟩⟩
    · exact (congrArg (fun st => st.find k) hview').trans (Store.find_insert_ne hne)
    · exact (congrArg (fun st => st.find key) hview').trans Store.find_insert_self
  | overwrites hg hfit _ hd =>
    obtain ⟨hgs, hview⟩ := h.grow hk hg
    obtain ⟨hs', hview'⟩ := hgs.deletes hd (hfree _ hg key (target_of_fits hfit))
    have hfound := view_find (hgs.tidy.tidyAt key) (hgs.genuine.clean key)
    rw [hd.lookup_eq] at hfound
    rw [hview] at hview' hfound
    refine ⟨hs'.of_evictor _, fun k hne => ?_, .inr ⟨rfl, by simp [hfound], ?_⟩⟩
    · exact (congrArg (fun st => st.find k) hview').trans (Store.find_remove_ne hne)
    · exact (congrArg (fun st => st.find key) hview').trans Store.find_remove_self
  | evicts hg hno | misses hg hno | refused hg hno => exact absurd (hfits _ hg).1 hno

/-- With enough memory a plain call of `set` stores its value, after it has deleted the old one,
and leaves the other keys alone. -/
theorem Stock.set (h : s.Stock keys w) (hset : s.set key val size = .ok (es, s'))
    (hcap : (keys.length + 1) * w ≤ s.maxmem.toNat) (hm : Triple.Modest keys w ⟨key, size, val⟩)
    (ho : s.Plain (.set key val size)) :
    s'.Stock keys w ∧ (∀ k, k ≠ key → s'.view.find k = s.view.find k) ∧
      s'.view.find key = some ⟨size, val⟩ ∧ (es = [.stored] ∨ es = [.overwrites, .stored]) := by
  have hfirst : ∀ {e a}, s.setBody key val size = .ok (e, a) → _ := fun hb =>
    h.activation (setBody_cases hb) hcap hm (ho.keeps s .refl) (ho.frees s .refl)
  cases set_ends hset with
  | last hb hno =>
    obtain ⟨hs', hother, ⟨rfl, hself⟩ | ⟨rfl, -⟩⟩ := hfirst hb
    · exact ⟨hs', hother, hself, .inl rfl⟩
    · cases hno
  | @more _ a _ _ _ hb hag hrest =>
    obtain ⟨has, hother, ⟨rfl, -⟩ | ⟨rfl, -, hnone⟩⟩ := hfirst hb
    · cases hag
    -- the old value is gone, so that the second activation stores the new one
    have ha : (setLoop key val size).Entered s a := .single ⟨_, hb, hag⟩
    have hmax : a.maxmem = s.maxmem := (setBody_cases hb).maxmem_eq
    have hsecond : ∀ {e b}, a.setBody key val size = .ok (e, b) → _ := fun hb =>
      has.activation (setBody_cases hb) (by rwa [hmax]) hm (ho.keeps a ha) (ho.frees a ha)
    cases hrest with
    | last hb' hno =>
      obtain ⟨hs', hother', ⟨rfl, hself⟩ | ⟨rfl, -⟩⟩ := hsecond hb'
      · exact ⟨hs', fun k hk => (hother' k hk).trans (hother k hk), hself, .inr rfl⟩
      · cases hno
    | more hb' hag' _ =>
      obtain ⟨-, -, ⟨rfl, -⟩ | ⟨-, hsome, -⟩⟩ := hsecond hb'
      · cases hag'
      · exact absurd hnone hsome

theorem Stock.call (h : s.Stock keys w) (hc : s.Call o r s')
    (hcap : (keys.length + 1) * w ≤ s.maxmem.toNat) (hm : o.Modest keys w) (ho : s.Plain o)
    {H : List (Op × Result)} (hH : ∀ k, s.view.find k = lastEntry k H) :
    s'.Stock keys w ∧ ∀ k, s'.view.find k = lastEntry k ((o, r) :: H) := by
  cases hc with
  | set hset =>
    obtain ⟨hs', hother, hself, -⟩ := h.set hset hcap hm ho
    refine ⟨hs', fun k => ?_⟩
    simp only [lastEntry]
    split
    · rename_i hk
      rw [← hk, hself]
    · rename_i hk
      rw [hother k (Ne.symm hk), hH]
  | get hget =>
    obtain ⟨-, ⟨-, -, -, rfl⟩ | ⟨_, _, -, -, -, -, rfl⟩⟩ := get_cases hget
    exacts [⟨h, hH⟩, ⟨h.of_evictor _, hH⟩]
  | @del key b s' hdel =>
    obtain ⟨-, ⟨-, rfl, hl⟩ | ⟨-, t, hd⟩⟩ := del_cases hdel
    · refine ⟨h, fun k => ?_⟩
      simp only [lastEntry]
      split
      · rename_i hk
        rw [← hk, view_find (h.tidy.tidyAt key) (h.genuine.clean key), hl, Option.map_none]
      · exact hH k
    · obtain ⟨hs', hview⟩ := h.deletes hd ho.frees
      refine ⟨hs', fun k => ?_⟩
      simp only [lastEntry, hview]
      split
      · rename_i hk
        rw [← hk, Store.find_remove_self]
      · rename_i hk
        rw [Store.find_remove_ne (Ne.symm hk), hH]
  | spaceUsed => exact ⟨h, hH⟩
  | reset => exact absurd rfl ho.no_reset

variable {maxmem : UInt32} {maxLoadFactor : FloatVal} {evictor : Option ε}
  {hasher : Option (KeyType → UInt64)} {H : List (Op × Result)}

/-- **With room for everything the cache is a map.**  Let there be room for one value more than
there are keys.  Then in every run of plain calls, whatever the evictor does, a search for a key
finds what the last call with this key has left, and every `set` stores its value without evicting
another one. -/
theorem lookup_eq_lastEntry (hcap : (keys.length + 1) * w ≤ maxmem.toNat)
    (h : (library ε).Reaches (fun s o => s.Plain o ∧ o.Modest keys w)
      (new maxmem maxLoadFactor evictor hasher) H s) :
    (∀ k, (s.lookup k).map Triple.entry = lastEntry k H) ∧
      ∀ key val size es, (Op.set key val size, Result.set es) ∈ H →
        es = [.stored] ∨ es = [.overwrites, .stored] := by
  suffices hinv : s.Stock keys w ∧ s.maxmem = maxmem ∧ (∀ k, s.view.find k = lastEntry k H) ∧
      ∀ key val size es, (Op.set key val size, Result.set es) ∈ H →
        es = [.stored] ∨ es = [.overwrites, .stored] by
    obtain ⟨hs, -, hview, hexits⟩ := hinv
    refine ⟨fun k => ?_, hexits⟩
    rw [← view_find (hs.tidy.tidyAt k) (hs.genuine.clean k), hview]
  induction h with
  | start =>
    refine ⟨stock_new _ _ _ _, rfl, fun k => ?_, nofun⟩
    rw [(Tidy.new maxmem maxLoadFactor evictor hasher).2, Store.find_new, lastEntry]
  | @call H s s' o r _ ho hst ih =>
    obtain ⟨hs, rfl, hview, hexits⟩ := ih
    have hc := step_cases hst
    obtain ⟨hs', hview'⟩ := hs.call hc hcap ho.2 ho.1 hview
    refine ⟨hs', hc.maxmem_eq, hview', fun key val size es hmem => ?_⟩
    rcases List.mem_cons.1 hmem with heq | hmem
    · cases heq
      cases hc with
      | set hset => exact (hs.set hset hcap ho.2 ho.1).2.2.2
    · exact hexits key val size es hmem

/-- Room for three values and one more, with the policy that evicts the oldest key. -/
theorem lookup_eq_lastEntry_small : ∃ H s, (library FifoEvictor).exec
      (small 8 (some FifoEvictor.new))
      [.set [1] (text "a") 2, .set [4] (text "b") 2, .set [1] (text "c") 2, .del [4],
        .set [8] (text "d") 2] = some (H, s) ∧
    ∀ k, (s.lookup k).map Triple.entry = lastEntry k H :=
  have hguard : (library FifoEvictor).Guarded (fun s o => s.Plain o ∧ o.Modest [[1], [4], [8]] 2)
      (small 8 (some FifoEvictor.new)) [.set [1] (text "a") 2, .set [4] (text "b") 2,
        .set [1] (text "c") 2, .del [4], .set [8] (text "d") 2] := by decide
  Machine.exists_exec ⟨_, _, rfl, trivial⟩ hguard fun _ _ h (_ : True) =>
    (lookup_eq_lastEntry (by decide) h).1

end Evictor

end Impl

end CrankItUp
