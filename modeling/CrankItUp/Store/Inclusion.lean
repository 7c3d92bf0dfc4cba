import CrankItUp.Evictor.LruHistory
import CrankItUp.Machine.Omission
import CrankItUp.Machine.Paging
import CrankItUp.Store.Admission
import CrankItUp.Store.Observe

/-!
# More memory

The least-recently-used policy with more memory.  When all values have one size, the keys of the
store are a recency list with room for a fixed number of keys; a store with more memory then has
all keys that one with less memory has, with the same values.

* `Store.Paged w l st` : the store has the keys `l`, the most recently used first, with values of
  the size `w`.
* `Store.Paged.set`, `Store.Paged.get` : `set` loads its key into this list, and `get` looks it up.
* `Impl.results_within` : whatever is found with less memory is found with more.
-/

namespace CrankItUp

namespace Store

open RecencyList

/-- The store has the keys `l`, in the order of its evictor, and its values have one size. -/
structure Paged (w : UInt32) (l : List KeyType) (st : Store LRU) : Prop where
  evictor : ∃ e, st.evictor = some e ∧ e.keys = l
  stored : ∀ k, st.find k ≠ none ↔ k ∈ l
  uniform : ∀ k x, st.find k = some x → x.size = w ∧ x.val ≠ none
  used : st.used.toNat = w.toNat * l.length
  bounded : w.toNat * l.length ≤ st.maxmem.toNat

/-- The same without the key `key`, for which there is room; the evictor may know it. -/
structure Vacant (w : UInt32) (key : KeyType) (l : List KeyType) (st : Store LRU) : Prop where
  evictor : ∃ e, st.evictor = some e ∧ e.keys = l
  absent : st.find key = none
  stored : ∀ k ≠ key, st.find k ≠ none ↔ k ∈ l
  uniform : ∀ k x, st.find k = some x → x.size = w ∧ x.val ≠ none
  used : st.used.toNat + w.toNat = w.toNat * (touch key l).length
  bounded : w.toNat * (touch key l).length ≤ st.maxmem.toNat

/-- The number of values of the size `w` that the store has room for. -/
def room (st : Store LRU) (w : UInt32) : ℕ := st.maxmem.toNat / w.toNat

variable {st st' : Store LRU} {w : UInt32} {l : List KeyType} {key k : KeyType} {val : ValType}
  {x y : Entry} {n : UInt32}

theorem find_of_remove (h : (st.remove key x).find k = some y) : st.find k = some y := by
  have hk := (find_remove_ne_none (ne_of_eq_of_ne h (by simp))).1
  exact (find_remove_ne hk).symm.trans h

theorem Paged.nodup (h : Paged w l st) : l.Nodup := by
  obtain ⟨e, -, rfl⟩ := h.evictor
  exact e.nodup_keys

theorem keys_touchKey (e : LRU) (key : KeyType) :
    (Evictor.touchKey e key).keys = touch key e.keys :=
  LRUEvictor.keys_touch e.2 key

theorem fits_iff_toNat (hused : st.used.toNat ≤ st.maxmem.toNat)
    (hmax : st.maxmem.toNat + w.toNat < 2 ^ 32) :
    st.Fits w ↔ st.used.toNat + w.toNat ≤ st.maxmem.toNat := by
  rw [Fits, UInt32.le_iff_toNat_le, UInt32.toNat_add, Nat.mod_eq_of_lt (by omega)]

theorem Paged.fits_iff (h : Paged w l st) (hpos : 0 < w.toNat)
    (hmax : st.maxmem.toNat + w.toNat < 2 ^ 32) : st.Fits w ↔ l.length < st.room w := by
  have hle : st.used.toNat ≤ st.maxmem.toNat := h.used ▸ h.bounded
  rw [fits_iff_toNat hle hmax, h.used, room, Nat.lt_iff_add_one_le, Nat.le_div_iff_mul_le hpos,
    Nat.add_mul, Nat.one_mul, Nat.mul_comm]

theorem Vacant.fits (h : Vacant w key l st) (hmax : st.maxmem.toNat + w.toNat < 2 ^ 32) :
    st.Fits w := by
  have hused := h.used
  have hb := h.bounded
  rw [fits_iff_toNat (by omega) hmax, hused]
  exact hb

/-! ### Storing a value -/

theorem Vacant.store (h : Vacant w key l st) (hval : val ≠ none) :
    Paged w (touch key l) ((st.insert key ⟨w, val⟩).touchKey key) := by
  obtain ⟨e, he, rfl⟩ := h.evictor
  have hused := h.used
  have hb := h.bounded
  have hlt := st.maxmem.toNat_lt
  refine ⟨⟨Evictor.touchKey e key, ?_, keys_touchKey e key⟩, fun k => ?_, fun k y hy => ?_, ?_, hb⟩
  · simp [touchKey, insert, he]
  · rw [touchKey_find, mem_touch]
    by_cases hk : k = key
    · subst hk
      simp
    · rw [find_insert_ne hk, h.stored k hk]
      simp [hk]
  · rw [touchKey_find] at hy
    by_cases hk : k = key
    · subst hk
      rw [find_insert_self] at hy
      cases hy
      exact ⟨rfl, hval⟩
    · rw [find_insert_ne hk] at hy
      exact h.uniform k y hy
  · change (st.used + w).toNat = _
    rw [UInt32.toNat_add, hused, Nat.mod_eq_of_lt (by omega)]

theorem Paged.vacant_of_absent (h : Paged w l st) (hf : st.find key = none) (hpos : 0 < w.toNat)
    (hroom : l.length < st.room w) : Vacant w key l st := by
  have hno : key ∉ l := fun hmem => (h.stored key).2 hmem hf
  have hlen := length_touch_of_notMem hno
  refine ⟨h.evictor, hf, fun k _ => h.stored k, h.uniform, ?_, ?_⟩ <;> rw [hlen]
  · rw [h.used, Nat.mul_add, Nat.mul_one]
  · rw [Nat.mul_comm]
    exact (Nat.le_div_iff_mul_le hpos).1 hroom

theorem Paged.vacant_of_present (h : Paged w l st) (hf : st.find key = some x) :
    Vacant w key (touch key l) ((st.remove key x).touchKey key) := by
  obtain ⟨e, he, rfl⟩ := h.evictor
  have hmem : key ∈ e.keys := (h.stored key).1 (by simp [hf])
  have hlen := length_touch_of_mem hmem
  have hused := h.used
  have hle : w.toNat ≤ st.used.toNat := by
    rw [hused]
    exact Nat.le_mul_of_pos_right _ (List.length_pos_of_mem hmem)
  refine ⟨⟨Evictor.touchKey e key, ?_, keys_touchKey e key⟩, find_remove_self (x := x),
    fun k hk => ?_, fun k y hy => ?_, ?_, ?_⟩
  · simp [touchKey, remove, he]
  · rw [touchKey_find, find_remove_ne hk, h.stored k, mem_touch]
    simp [hk]
  · rw [touchKey_find] at hy
    exact h.uniform k y (find_of_remove hy)
  · rw [touch_touch, hlen, ← hused]
    change (st.used - x.size).toNat + w.toNat = _
    rw [(h.uniform key x hf).1, UInt32.toNat_sub_of_le _ _ (UInt32.le_iff_toNat_le.2 hle),
      Nat.sub_add_cancel hle]
  · rw [touch_touch, hlen]
    exact h.bounded

theorem Paged.ends_of_fits (h : Paged w l st) (hpos : 0 < w.toNat)
    (hmax : st.maxmem.toNat + w.toNat < 2 ^ 32) (hval : val ≠ none) (hroom : l.length < st.room w)
    (key : KeyType) : ∃ es st', (setLoop key val w).Ends st es st' ∧ Paged w (touch key l) st' ∧
      st'.find key = some ⟨w, val⟩ ∧ (∀ k ≠ key, st'.find k = st.find k) ∧
      st'.maxmem = st.maxmem := by
  have hfit := (h.fits_iff hpos hmax).2 hroom
  cases hf : st.find key with
  | none =>
    have hvac := h.vacant_of_absent hf hpos hroom
    exact ⟨_, _, .last (setBody_of_fits hfit hf) rfl, hvac.store hval, find_insert_self,
      fun k hk => find_insert_ne hk, rfl⟩
  | some x =>
    obtain ⟨v, hv⟩ := Option.ne_none_iff_exists'.1 (h.uniform key x hf).2
    have hvac := h.vacant_of_present hf
    refine ⟨_, _, .more (setBody_of_present hfit hf hv) rfl
      (.last (setBody_of_fits (hvac.fits hmax) hvac.absent) rfl), ?_, find_insert_self,
      fun k hk => ?_, rfl⟩
    · have := hvac.store hval
      rwa [touch_touch] at this
    · rw [touchKey_find, find_insert_ne hk, touchKey_find, find_remove_ne hk]

theorem Paged.evict {e : LRU} {ks : List KeyType} (h : Paged w (ks ++ [k]) st)
    (he : st.evictor = some e) : (Evictor.evict e).1 = k ∧ ∃ x, st.find k = some x ∧
      Paged w ks { st.remove k x with evictor := some (Evictor.evict e).2 } := by
  obtain ⟨e', he', hkeys⟩ := h.evictor
  cases he.symm.trans he'
  have hno : k ∉ ks := fun hmem =>
    (List.nodup_append.1 h.nodup).2.2 k hmem k List.mem_cons_self rfl
  obtain ⟨x, hx⟩ := Option.ne_none_iff_exists'.1 ((h.stored k).2 (by simp))
  have hused := h.used
  have hb := h.bounded
  rw [List.length_append, List.length_singleton, Nat.mul_add, Nat.mul_one] at hused hb
  refine ⟨by rw [LRU.evict_fst, hkeys]; simp, x, hx, ⟨_, rfl, ?_⟩, fun k' => ?_, fun k' y hy => ?_,
    ?_, ?_⟩
  · rw [LRU.keys_evict, hkeys, List.dropLast_concat]
  · change (st.remove k x).find k' ≠ none ↔ _
    by_cases hk : k' = k
    · subst hk
      simp [hno]
    · rw [find_remove_ne hk, h.stored k']
      simp [hk]
  · have hold : (st.remove k x).find k' = some y := hy
    exact h.uniform k' y (find_of_remove hold)
  · change (st.used - x.size).toNat = _
    rw [(h.uniform k x hx).1, UInt32.toNat_sub_of_le _ _ (UInt32.le_iff_toNat_le.2 (by omega)),
      hused, Nat.add_sub_cancel]
  · exact Nat.le_of_add_right_le hb

/-- **`set` loads its key** into the list, and forgets no other key than the last one. -/
theorem Paged.set (h : Paged w l st) (hpos : 0 < w.toNat)
    (hmax : st.maxmem.toNat + w.toNat < 2 ^ 32) (hval : val ≠ none) (hroom : 0 < st.room w)
    (key : KeyType) : ∃ es st', st.set key val w = .ok (es, st') ∧
      Paged w (load (st.room w) key l) st' ∧ st'.find key = some ⟨w, val⟩ ∧
      (∀ k ≠ key, k ∈ load (st.room w) key l → st'.find k = st.find k) ∧
      st'.maxmem = st.maxmem := by
  obtain ⟨es, st', hends, hst'⟩ : ∃ es st', (setLoop key val w).Ends st es st' ∧
      Paged w (load (st.room w) key l) st' ∧ st'.find key = some ⟨w, val⟩ ∧
      (∀ k ≠ key, k ∈ load (st.room w) key l → st'.find k = st.find k) ∧
      st'.maxmem = st.maxmem := by
    by_cases hlen : l.length < st.room w
    · obtain ⟨es, st', hends, hpaged, hself, hother, hm⟩ :=
        h.ends_of_fits hpos hmax hval hlen key
      rw [load, if_pos hlen]
      exact ⟨es, st', hends, hpaged, hself, fun k hk _ => hother k hk, hm⟩
    · -- the last key makes room
      obtain rfl | ⟨ks, k, rfl⟩ := l.eq_nil_or_concat'
      · exact absurd hroom hlen
      obtain ⟨e, he, -⟩ := h.evictor
      obtain ⟨rfl, x, hx, hpaged⟩ := h.evict he
      have hfit : ¬ st.Fits w := fun hfit => hlen ((h.fits_iff hpos hmax).1 hfit)
      have hlt : ks.length < st.room w := by
        have hle : (ks ++ [(Evictor.evict e).1]).length ≤ st.room w :=
          (Nat.le_div_iff_mul_le hpos).2 (by rw [Nat.mul_comm]; exact h.bounded)
        rw [List.length_append, List.length_singleton] at hle
        omega
      obtain ⟨es, st', hends, hst', hself, hother, hm⟩ :=
        hpaged.ends_of_fits hpos hmax hval hlt key
      rw [load, if_neg hlen, List.dropLast_concat]
      refine ⟨_, st', .more (setBody_of_evicts hfit he hx) rfl hends, hst', hself,
        fun k hk hmem => ?_, hm⟩
      have hne : k ≠ (Evictor.evict e).1 := by
        rintro rfl
        have hks := (mem_touch.1 hmem).resolve_left hk
        exact (List.nodup_append.1 h.nodup).2.2 _ hks _ List.mem_cons_self rfl
      rw [hother k hk]
      exact find_remove_ne (x := x) hne
  exact ⟨es, st', hends.run_eq (fun _ _ => card_of_calls) _ (Nat.lt_succ_self _), hst'⟩

theorem Paged.touchKey (h : Paged w l st) (hmem : key ∈ l) :
    Paged w (touch key l) (st.touchKey key) := by
  obtain ⟨e, he, rfl⟩ := h.evictor
  have hlen := length_touch_of_mem hmem
  refine ⟨⟨Evictor.touchKey e key, by simp [Store.touchKey, he], keys_touchKey e key⟩, fun k => ?_,
    h.uniform, ?_, ?_⟩
  · rw [touchKey_find, h.stored k, mem_touch, or_iff_right_of_imp]
    rintro rfl
    exact hmem
  · rw [hlen]
    exact h.used
  · rw [hlen]
    exact h.bounded

/-- **`get` looks its key up** in the list. -/
theorem Paged.get (h : Paged w l st) (key : KeyType) (n : UInt32) :
    (st.find key = none ∧ hit key l = l ∧ st.get key n = .ok (none, n, st)) ∨
      ∃ x v, st.find key = some x ∧ x.val = some v ∧ Paged w (hit key l) (st.touchKey key) ∧
        st.get key n = .ok (some v, UInt32.ofNat (v.strlen + 1), st.touchKey key) := by
  cases hf : st.find key with
  | none =>
    have hno : key ∉ l := fun hmem => (h.stored key).2 hmem hf
    refine .inl ⟨rfl, if_neg hno, ?_⟩
    simp only [Store.get, hf]
  | some x =>
    have hmem : key ∈ l := (h.stored key).1 (by simp [hf])
    obtain ⟨v, hv⟩ := Option.ne_none_iff_exists'.1 (h.uniform key x hf).2
    refine .inr ⟨x, v, rfl, hv, ?_, ?_⟩
    · rw [hit, if_pos hmem]
      exact h.touchKey hmem
    · simp only [Store.get, hf, hv]

end Store

/-! ### Two stores -/

/-- The call stores a value of the size `w`, if it stores one, and does not remove any. -/
def Op.Uniform (w : UInt32) : Op → Prop
  | .set _ val size => size = w ∧ val ≠ none
  | .get _ _ | .spaceUsed => True
  | .del _ | .reset => False

instance (w : UInt32) : ∀ o : Op, Decidable (o.Uniform w)
  | .set _ val size => inferInstanceAs (Decidable (size = w ∧ val ≠ none))
  | .get _ _ | .spaceUsed => isTrue trivial
  | .del _ | .reset => isFalse id

/-- What the second result shows is at least what the first one shows. -/
def Result.Within : Result → Result → Prop
  | .get (some v) n, .get v' n' => v' = some v ∧ n' = n
  | .get none _, .get _ _ => True
  | .set _, .set _ => True
  | .spaceUsed n, .spaceUsed n' => n ≤ n'
  | _, _ => False

namespace Store

open RecencyList

variable {st st' : Store LRU} {w : UInt32} {s l : List KeyType} {o : Op}

/-- The second store has the memory for all that the first one has. -/
structure Within (w : UInt32) (st st' : Store LRU) : Prop where
  keys : ∃ s l, Paged w s st ∧ Paged w l st' ∧ RecencyList.Within (st.room w) (st'.room w) s l
  same : ∀ k x, st.find k = some x → st'.find k = some x
  pos : 0 < w.toNat
  room_pos : 0 < st.room w
  wrap : st.maxmem.toNat + w.toNat < 2 ^ 32
  wrap' : st'.maxmem.toNat + w.toNat < 2 ^ 32

theorem step_set {key : KeyType} {val : ValType} {es : List Exit}
    (h : st.set key val w = .ok (es, st')) : st.step (.set key val w) = .ok (.set es, st') := by
  simp only [Store.step, h]
  rfl

theorem step_get {key : KeyType} {v : ValType} {n n' : UInt32}
    (h : st.get key n = .ok (v, n', st')) : st.step (.get key n) = .ok (.get v n', st') := by
  simp only [Store.step, h]
  rfl

theorem paged_new (w maxmem : UInt32) : Paged w [] (new maxmem (some LRU.new)) where
  evictor := ⟨LRU.new, rfl, rfl⟩
  stored k := by simp
  uniform k x hx := by simp at hx
  used := rfl
  bounded := Nat.zero_le _

theorem within_new {maxmem maxmem' : UInt32} (hpos : 0 < w) (hle : w ≤ maxmem)
    (hmax : maxmem ≤ maxmem') (hwrap : maxmem'.toNat + w.toNat < 2 ^ 32) :
    Within w (new maxmem (some LRU.new)) (new maxmem' (some LRU.new)) := by
  rw [UInt32.le_iff_toNat_le] at hle hmax
  have hroom : maxmem.toNat / w.toNat ≤ maxmem'.toNat / w.toNat := Nat.div_le_div_right hmax
  exact ⟨⟨[], [], paged_new w maxmem, paged_new w maxmem', .nil hroom⟩, fun k x hx => by simp at hx,
    UInt32.lt_iff_toNat_lt.1 hpos, Nat.div_pos hle (UInt32.lt_iff_toNat_lt.1 hpos),
    Nat.lt_of_le_of_lt (Nat.add_le_add_right hmax _) hwrap, hwrap⟩

/-- The two stores after a call that has left the keys `s` and `l`. -/
theorem Within.next {a a' : Store LRU} (h : Within w st st') (hm : a.maxmem = st.maxmem)
    (hm' : a'.maxmem = st'.maxmem) (hs : Paged w s a) (hl : Paged w l a')
    (hsl : RecencyList.Within (st.room w) (st'.room w) s l)
    (hsame : ∀ k x, a.find k = some x → a'.find k = some x) : Within w a a' := by
  have hroom : a.room w = st.room w := by rw [room, room, hm]
  have hroom' : a'.room w = st'.room w := by rw [room, room, hm']
  exact ⟨⟨s, l, hs, hl, hroom.symm ▸ hroom'.symm ▸ hsl⟩, hsame, h.pos, hroom.symm ▸ h.room_pos,
    hm.symm ▸ h.wrap, hm'.symm ▸ h.wrap'⟩

/-- A call keeps this, and shows with more memory what it shows with less. -/
theorem Within.step (h : Within w st st') (ho : o.Uniform w) :
    ∃ r a r' a', st.step o = .ok (r, a) ∧ st'.step o = .ok (r', a') ∧ r.Within r' ∧
      Within w a a' := by
  obtain ⟨s, l, hs, hl, hsl⟩ := h.keys
  cases o with
  | set key val size =>
    obtain ⟨rfl, hval⟩ := ho
    have hroom' : 0 < st'.room size := Nat.lt_of_lt_of_le h.room_pos hsl.room_le
    obtain ⟨es, a, hset, ha, hself, hother, hm⟩ := hs.set h.pos h.wrap hval h.room_pos key
    obtain ⟨es', a', hset', ha', hself', hother', hm'⟩ := hl.set h.pos h.wrap' hval hroom' key
    have hload := hsl.load h.room_pos key
    refine ⟨_, a, _, a', step_set hset, step_set hset', trivial,
      h.next hm hm' ha ha' hload fun k x hx => ?_⟩
    by_cases hk : k = key
    · rw [hk] at hx ⊢
      exact hself'.trans (hself.symm.trans hx)
    · -- the key was there before, with less memory and hence with more
      have hmem := (ha.stored k).1 (by simp [hx])
      rw [hother k hk hmem] at hx
      rw [hother' k hk (hload.mem hmem)]
      exact h.same k x hx
  | get key n =>
    have hhit := hsl.hit key
    obtain ⟨-, hkeep, hget⟩ | ⟨x, v, hf, hv, ha, hget⟩ := hs.get key n
    · rw [hkeep] at hhit
      obtain ⟨-, hkeep', hget'⟩ | ⟨x', v', -, -, ha', hget'⟩ := hl.get key n
      · exact ⟨_, st, _, st', step_get hget, step_get hget', trivial, h⟩
      · exact ⟨_, st, _, _, step_get hget, step_get hget', trivial,
          h.next rfl rfl hs ha' hhit h.same⟩
    · have hf' := h.same key x hf
      obtain ⟨hno, -⟩ | ⟨x', v', hx', hv', ha', hget'⟩ := hl.get key n
      · cases hf'.symm.trans hno
      · cases hf'.symm.trans hx'
        cases hv.symm.trans hv'
        exact ⟨_, _, _, _, step_get hget, step_get hget', ⟨rfl, rfl⟩,
          h.next rfl rfl ha ha' hhit h.same⟩
  | spaceUsed =>
    refine ⟨_, _, _, _, rfl, rfl, ?_, h⟩
    change st.used ≤ st'.used
    rw [UInt32.le_iff_toNat_le, hs.used, hl.used]
    exact Nat.mul_le_mul_left _ hsl.sublist.length_le
  | del | reset => exact ho.elim

end Store

/-! ### Two caches -/

theorem mem_of_behind {key : KeyType} {b : Bucket} {t : Triple} (h : behind key b = some t) :
    t ∈ b := by
  induction b with
  | nil => cases h
  | cons it rest ih =>
    rw [behind] at h
    split at h
    · exact List.mem_cons_of_mem _ (List.mem_of_mem_head? h)
    · exact List.mem_cons_of_mem _ (ih h)

namespace Impl

variable {ε : Type}

/-- All triples have the size `w`. -/
def OneSize (w : UInt32) (s : Impl ε) : Prop := ∀ t ∈ s.triples, t.size = w

variable {s s' g : Impl ε} {w : UInt32} {o : Op} {r : Result}

theorem OneSize.frees (h : s.OneSize w) (key : KeyType) : s.FreesExactly key := by
  intro t ht t' ht'
  have hmem : t' ∈ s.triples := mem_triples.2 ⟨_, mem_of_behind ht'⟩
  exact (h t' hmem).trans (h t (lookup_mem_triples ht)).symm

theorem OneSize.grow (h : s.OneSize w) (hg : s.grow = .ok g) : g.OneSize w :=
  fun t ht => h t ((mem_grow_triples hg).1 ht)

theorem OneSize.push (h : s.OneSize w) (hpos : 0 < s.dict.length) (key : KeyType)
    (val : ValType) : (s.push key val w).OneSize w := by
  intro t ht
  rcases (mem_push_triples hpos).1 ht with rfl | ht
  exacts [rfl, h t ht]

theorem OneSize.deletes {k : KeyType} {t : Triple} (h : s.OneSize w) (hd : s.Deletes k t s') :
    s'.OneSize w :=
  fun u hu => h u (hd.subset u hu)

variable [Evictor ε]

theorem OneSize.activation {key : KeyType} {val : ValType} {e : Exit} (h : s.OneSize w)
    (ha : s.Activation key val w e s') : s'.OneSize w :=
  ha.induction (P := OneSize w) (fun _ _ _ ha => ha) (fun _ hg => h.grow hg)
    (fun _ _ hg hpos _ _ => hg.push hpos key val) fun _ _ _ _ _ hg _ hd => hg.deletes hd

theorem OneSize.call (h : s.OneSize w) (ho : o.Uniform w) (hc : s.Call o r s') :
    s'.OneSize w := by
  cases hc with
  | set hs =>
    obtain ⟨rfl, -⟩ := ho
    exact (set_ends hs).invariant h fun _ _ _ _ _ ha hb => ha.activation (setBody_cases hb)
  | get hs =>
    obtain ⟨-, ⟨-, -, -, rfl⟩ | ⟨t, w, -, -, -, -, rfl⟩⟩ := get_cases hs
    exacts [h, h]
  | spaceUsed => exact h
  | del | reset => exact ho.elim

/-- Calls that store values of one size are plain, as long as growth hides nothing. -/
theorem OneSize.plain (h : s.OneSize w) (ho : o.Uniform w)
    (hk : s.EachActivation (fun a _ _ => a.KeepsAll) o) : s.Plain o := by
  refine ⟨hk, ?_, ?_, ?_⟩
  · cases o with
    | set key val size =>
      obtain ⟨rfl, -⟩ := ho
      intro a ha g hg k _
      have hsize : a.OneSize size := ha.invariant h fun _ _ _ _ ha hb _ =>
        ha.activation (setBody_cases hb)
      exact (hsize.grow hg).frees k
    | get | spaceUsed | reset => trivial
    | del => exact ho.elim
  · cases o with
    | set key val size =>
      intro heq
      exact ho.2 (congrArg Triple.val heq)
    | get | del | spaceUsed | reset => trivial
  · rintro rfl
    exact ho

theorem OneSize.guarded_plain {os : List Op} (h : s.OneSize w) (hos : ∀ o ∈ os, o.Uniform w)
    (hk : (library ε).Guarded (EachActivation fun a _ _ => a.KeepsAll) s os) :
    (library ε).Guarded Plain s os := by
  induction os generalizing s with
  | nil => trivial
  | cons o os ih =>
    have ho := hos o List.mem_cons_self
    exact ⟨h.plain ho hk.1, fun r s' hst => ih (h.call ho (step_cases hst))
      (fun o ho => hos o (List.mem_cons_of_mem _ ho)) (hk.2 r s' hst)⟩

theorem results_new_eq {maxmem : UInt32} {loadFactor : FloatVal} {e : Option ε}
    {hasher : Option (KeyType → UInt64)} {os : List Op} (hos : ∀ o ∈ os, o.Uniform w)
    (hk : (library ε).Guarded (EachActivation fun a _ _ => a.KeepsAll)
      (new maxmem loadFactor e hasher) os) :
    (library ε).results (new maxmem loadFactor e hasher) os =
      (store ε).results (Store.new maxmem e) os := by
  obtain ⟨htidy, hview⟩ := Tidy.new maxmem loadFactor e hasher
  have hsize : (new maxmem loadFactor e hasher).OneSize w := fun t ht => by
    rw [new_triples] at ht
    cases ht
  rw [results_eq_store htidy (guarded_regular (new_genuine _ _ _ _) (hsize.guarded_plain hos hk)),
    hview]

/-- **More memory never hurts.**  Take two caches with the least-recently-used policy, of which the
second one has at least as much memory.  If all values have one size, and growing hides no key,
then every `get` that finds a value in the first cache finds the same one in the second, and
neither of them ends in a fault. -/
theorem results_within {maxmem maxmem' : UInt32} {loadFactor loadFactor' : FloatVal}
    {hasher hasher' : Option (KeyType → UInt64)} {os : List Op} (hpos : 0 < w)
    (hle : w ≤ maxmem) (hmax : maxmem ≤ maxmem') (hwrap : maxmem'.toNat + w.toNat < 2 ^ 32)
    (hos : ∀ o ∈ os, o.Uniform w)
    (hk : (library LRU).Guarded (EachActivation fun a _ _ => a.KeepsAll)
      (new maxmem loadFactor (some LRU.new) hasher) os)
    (hk' : (library LRU).Guarded (EachActivation fun a _ _ => a.KeepsAll)
      (new maxmem' loadFactor' (some LRU.new) hasher') os) :
    List.Forall₂ (fun x y => ∃ r r', x = .ok r ∧ y = .ok r' ∧ r.Within r')
      ((library LRU).results (new maxmem loadFactor (some LRU.new) hasher) os)
      ((library LRU).results (new maxmem' loadFactor' (some LRU.new) hasher') os) := by
  rw [results_new_eq hos hk, results_new_eq hos hk']
  exact Machine.results_forall₂ (Q := Store.Within w) (fun _ _ _ h ho => h.step ho) os _ _
    (Store.within_new hpos hle hmax hwrap) hos

/-- Room for two values, and for three. -/
theorem results_within_small :
    List.Forall₂ (fun x y => ∃ r r', x = .ok r ∧ y = .ok r' ∧ r.Within r')
    ((library LRU).results (small 4 (some LRU.new))
      [.set [1] (text "a") 2, .set [4] (text "b") 2, .get [1] 0, .set [8] (text "c") 2, .get [1] 0,
        .get [4] 0])
    ((library LRU).results (small 6 (some LRU.new))
      [.set [1] (text "a") 2, .set [4] (text "b") 2, .get [1] 0, .set [8] (text "c") 2, .get [1] 0,
        .get [4] 0]) :=
  results_within (w := 2) (by decide) (by decide) (by decide) (by decide) (by decide) (by decide)
    (by decide)

end Impl

end CrankItUp
