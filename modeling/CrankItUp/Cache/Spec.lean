import CrankItUp.Cache.Table
import Mathlib.Algebra.Group.Nat.Defs

/-!
# What the methods of the cache do

One lemma for each method says everything that a call of it can do; the proofs about the cache
use these and do not unfold the methods.

* `Impl.lookup s k` : the triple that a search for the key `k` finds; `Impl.column s i k` : the
  triples with the key `k` in bucket `i`.  The effect of every method on the table is stated as
  its effect on the columns.
* `Impl.Deletes s k t s'` : deleting the key `k` removes the triple `t`.
* `Impl.Activation s key val size e s'` : an activation of `set` ends with `e` in `s'`.  It has
  one constructor for each way through the method.
* `Impl.set_ends`, `Impl.set_ne_deep` : `set` runs activations until one returns, and is never
  cut short.
-/

namespace CrankItUp

namespace Impl

variable {ε : Type} (s : Impl ε)

/-- The index of the bucket in which a key is searched for. -/
def place (key : KeyType) : ℕ := (s.hasher key).toNat % s.dict.length

/-- The triple that a search for the key finds. -/
def lookup (key : KeyType) : Option Triple := findKey key (s.bucket (s.place key))

/-- The triples with the key in bucket `i`. -/
def column (i : ℕ) (key : KeyType) : List Triple := (s.bucket i).filter fun t => t.key = key

/-- The load factor is high enough for `set` to resize the table. -/
def Grows : Prop := s.maxLoadFactor.lt (s.numElements.toNat / s.dict.length) = true

instance : Decidable s.Grows := inferInstanceAs (Decidable (_ = true))

/-- If the table grows now, the number of buckets does not overflow. -/
def NoOverflow : Prop := s.Grows → 2 * s.dict.length < 2 ^ 32

instance : Decidable s.NoOverflow := inferInstanceAs (Decidable (_ → _))

/-- The value of the size fits into what is left of `maxmem`, as `set` computes it. -/
def Fits (size : UInt32) : Prop := s.spaceUsed + size ≤ s.maxmem

instance (size : UInt32) : Decidable (s.Fits size) := inferInstanceAs (Decidable (_ ≤ _))

/-- The index that `resize` gives to the triples with a key. -/
def newIndex (key : KeyType) : ℕ := (UInt32.ofNat (s.place key)).toNat

/-- The cache after a triple has been pushed and counted. -/
def push (key : KeyType) (val : ValType) (size : UInt32) : Impl ε :=
  { s with
    dict := s.dict.set (s.place key) (s.bucket (s.place key) ++ [⟨key, size, val⟩])
    numElements := s.numElements + 1
    spaceUsed := s.spaceUsed + size }

/-- Deleting the key from `s` removes the triple `t` and leaves `s'`: `t` is the first triple
with the key, and the size that is subtracted is that of the triple behind it, if any. -/
def Deletes (key : KeyType) (t : Triple) (s' : Impl ε) : Prop :=
  ∃ pre post, s.bucket (s.place key) = pre ++ t :: post ∧ (∀ x ∈ pre, x.key ≠ key) ∧
    t.key = key ∧ s.place key < s.dict.length ∧
    s' = { s with
      dict := s.dict.set (s.place key) (pre ++ post)
      numElements := s.numElements - 1
      spaceUsed := s.spaceUsed - (post.head?.getD t).size }

variable {s} {s' g : Impl ε} {key k : KeyType} {val : ValType} {size : UInt32} {t : Triple}

theorem place_lt (h : 0 < s.dict.length) (key : KeyType) : s.place key < s.dict.length :=
  Nat.mod_lt _ h

theorem bucketIndex_eq_ok {i : ℕ} :
    s.bucketIndex key = .ok i ↔ 0 < s.dict.length ∧ i = s.place key := by
  unfold bucketIndex place
  split
  · rename_i h
    simp [h]
  · rename_i h
    simp only [Except.ok.injEq, Nat.pos_of_ne_zero h, true_and]
    exact eq_comm

theorem lookup_eq_head? : s.lookup key = (s.column (s.place key) key).head? :=
  findKey_eq_head?

theorem lookup_key (h : s.lookup key = some t) : t.key = key := findKey_key h

theorem mem_triples : t ∈ s.triples ↔ ∃ i, t ∈ s.bucket i := mem_flatten_iff

theorem mem_column {i : ℕ} : t ∈ s.column i key ↔ t ∈ s.bucket i ∧ t.key = key := by
  simp [column]

theorem lookup_mem (h : s.lookup key = some t) : t ∈ s.column (s.place key) key :=
  List.mem_of_mem_head? (lookup_eq_head? ▸ h)

theorem lookup_mem_triples (h : s.lookup key = some t) : t ∈ s.triples :=
  mem_triples.2 ⟨_, (mem_column.1 (lookup_mem h)).1⟩

theorem bucket_of_length_le {i : ℕ} (h : s.dict.length ≤ i) : s.bucket i = [] := by
  simp [bucket, List.getD_eq_getElem?_getD, h]

theorem length_pos_of_lookup (h : s.lookup key = some t) : 0 < s.dict.length := by
  by_contra hpos
  have hmem := (mem_column.1 (lookup_mem h)).1
  rw [bucket_of_length_le (by omega)] at hmem
  cases hmem

/-! ### Deletion -/

theorem del_cases {removed : Bool} (h : s.del key = .ok (removed, s')) :
    0 < s.dict.length ∧ ((removed = false ∧ s' = s ∧ s.lookup key = none) ∨
      (removed = true ∧ ∃ t, s.Deletes key t s')) := by
  obtain ⟨i, hi, h⟩ := bind_eq_ok.1 h
  obtain ⟨hpos, rfl⟩ := bucketIndex_eq_ok.1 hi
  refine ⟨hpos, ?_⟩
  cases he : eraseKey key (s.bucket (s.place key)) with
  | none =>
    rw [he] at h
    cases h
    exact .inl ⟨rfl, rfl, eraseKey_eq_none.1 he⟩
  | some p =>
    obtain ⟨n, b⟩ := p
    rw [he] at h
    cases h
    obtain ⟨pre, t, post, hb, hpre, ht, rfl, rfl⟩ := eraseKey_eq_some he
    exact .inr ⟨rfl, t, pre, post, hb, hpre, ht, place_lt hpos key, rfl⟩

theorem del_isOk (h : 0 < s.dict.length) (key : KeyType) : ∃ p, s.del key = .ok p := by
  simp only [del, bucketIndex_eq_ok.2 ⟨h, rfl⟩, bind, Except.bind]
  split <;> exact ⟨_, rfl⟩

theorem Deletes.lookup_eq (h : s.Deletes key t s') : s.lookup key = some t := by
  obtain ⟨pre, post, hb, hpre, ht, -, -⟩ := h
  rw [lookup, hb]
  exact findKey_split hpre ht

theorem Deletes.frame (h : s.Deletes key t s') :
    s'.maxmem = s.maxmem ∧ s'.evictor = s.evictor ∧ s'.hasher = s.hasher ∧
      s'.dict.length = s.dict.length := by
  obtain ⟨pre, post, -, -, -, -, rfl⟩ := h
  simp

theorem Deletes.place_eq (h : s.Deletes key t s') (k : KeyType) : s'.place k = s.place k := by
  simp only [place, h.frame.2.2.1, h.frame.2.2.2]

theorem Deletes.triples_perm (h : s.Deletes key t s') : s.triples.Perm (t :: s'.triples) := by
  obtain ⟨pre, post, hb, -, -, hlt, rfl⟩ := h
  obtain ⟨before, behind, hs, hs'⟩ := exists_flatten_split hlt
  have hb' : s.dict.getD (s.place key) [] = pre ++ t :: post := hb
  simp only [triples, hs, hs', hb', List.append_assoc, List.cons_append]
  rw [← List.append_assoc, ← List.append_assoc before]
  exact List.perm_middle

theorem Deletes.subset (h : s.Deletes key t s') : ∀ u ∈ s'.triples, u ∈ s.triples :=
  fun _ hu => h.triples_perm.mem_iff.2 (List.mem_cons_of_mem _ hu)

theorem Deletes.of_evictor {e : Option ε} (h : Impl.Deletes { s with evictor := e } key t s') :
    ∃ g, s.Deletes key t g ∧ s' = { g with evictor := e } := by
  obtain ⟨pre, post, hb, hpre, ht, hlt, rfl⟩ := h
  exact ⟨_, ⟨pre, post, hb, hpre, ht, hlt, rfl⟩, rfl⟩

/-- Only the column of the deleted key changes: it loses its first triple. -/
theorem Deletes.column_eq (h : s.Deletes key t s') :
    s.column (s.place key) key = t :: s'.column (s.place key) key ∧
      ∀ i k, i ≠ s.place key ∨ k ≠ key → s'.column i k = s.column i k := by
  obtain ⟨pre, post, hb, hpre, ht, hlt, rfl⟩ := h
  have hself : (s.dict.set (s.place key) (pre ++ post)).getD (s.place key) [] = pre ++ post :=
    getD_set_self hlt _
  constructor
  · have hnil : pre.filter (fun x => decide (x.key = key)) = [] := by simpa using hpre
    simp only [column, bucket] at hb ⊢
    rw [hb, hself]
    simp [List.filter_append, hnil, ht]
  · intro i k hik
    by_cases hi : i = s.place key
    · subst hi
      have hk : k ≠ key := hik.resolve_left (fun h => h rfl)
      simp only [column, bucket] at hb ⊢
      rw [hb, hself]
      simp [List.filter_append, ht, Ne.symm hk]
    · simp only [column, bucket, getD_set_ne hi]

theorem Deletes.lookup_ne (h : s.Deletes key t s') (hk : k ≠ key) : s'.lookup k = s.lookup k := by
  rw [lookup_eq_head?, lookup_eq_head?, h.place_eq, h.column_eq.2 _ _ (.inr hk)]

/-! ### Insertion -/

theorem push_place (k : KeyType) : (s.push key val size).place k = s.place k := by
  simp [place, push]

theorem push_triples_perm (h : 0 < s.dict.length) :
    (s.push key val size).triples.Perm (⟨key, size, val⟩ :: s.triples) :=
  flatten_pushBack (place_lt h key) _

theorem mem_push_triples (h : 0 < s.dict.length) :
    t ∈ (s.push key val size).triples ↔ t = ⟨key, size, val⟩ ∨ t ∈ s.triples := by
  rw [(push_triples_perm h).mem_iff, List.mem_cons]

theorem push_column_self (h : 0 < s.dict.length) :
    (s.push key val size).column (s.place key) key =
      s.column (s.place key) key ++ [⟨key, size, val⟩] := by
  simp [column, bucket, push, place_lt h key]

theorem push_column {i : ℕ} (h : i ≠ s.place key ∨ k ≠ key) :
    (s.push key val size).column i k = s.column i k := by
  by_cases hlt : s.place key < s.dict.length
  · by_cases hi : i = s.place key
    · subst hi
      have hk : k ≠ key := h.resolve_left (fun h => h rfl)
      simp only [column, bucket, push, getD_set_self hlt]
      simp [List.filter_append, Ne.symm hk]
    · simp only [column, bucket, push, getD_set_ne hi]
  · simp only [column, bucket, push, List.set_eq_of_length_le (Nat.le_of_not_lt hlt)]

theorem push_lookup_self (h : 0 < s.dict.length) (hl : s.lookup key = none) :
    (s.push key val size).lookup key = some ⟨key, size, val⟩ := by
  rw [lookup_eq_head?] at hl ⊢
  rw [push_place, push_column_self h, List.head?_eq_none_iff.1 hl]
  rfl

theorem push_lookup_ne (hk : k ≠ key) : (s.push key val size).lookup k = s.lookup k := by
  rw [lookup_eq_head?, lookup_eq_head?, push_place, push_column (.inr hk)]

/-! ### Resizing -/

theorem resize_eq : s.resize = (s.triples.foldlM
    (fun dict t => pushBack dict (s.newIndex t.key) t) (List.replicate s.newSize.toNat [])).map
      fun d => { s with dict := d } := by
  unfold resize
  rw [foldlM_flatten]
  by_cases hpos : 0 < s.dict.length
  · have hi : ∀ k, s.bucketIndex k = .ok (s.place k) := fun k => bucketIndex_eq_ok.2 ⟨hpos, rfl⟩
    simp only [hi, newIndex]
    rfl
  · -- without buckets there are no triples, and no index is computed
    have hnil : s.dict = [] := List.length_eq_zero_iff.1 (Nat.eq_zero_of_not_pos hpos)
    simp only [triples, hnil]
    rfl

theorem resize_cases (h : s.resize = .ok g) :
    ∃ d, g = { s with dict := d } ∧ d.length = s.newSize.toNat ∧ g.triples.Perm s.triples ∧
      (∀ i, g.bucket i = s.triples.filter fun t => s.newIndex t.key = i) ∧
      ∀ t ∈ s.triples, s.newIndex t.key < s.newSize.toNat := by
  rw [resize_eq] at h
  cases hd : s.triples.foldlM (fun dict t => pushBack dict (s.newIndex t.key) t)
      (List.replicate s.newSize.toNat []) with
  | error f => rw [hd] at h; cases h
  | ok d =>
    rw [hd] at h
    cases h
    obtain ⟨hlen, hperm, hget, hlt⟩ := foldlM_pushBack hd
    rw [List.length_replicate] at hlen hlt
    rw [flatten_replicate_nil, List.append_nil] at hperm
    refine ⟨d, rfl, hlen, hperm, fun i => ?_, hlt⟩
    have hnil : (List.replicate s.newSize.toNat ([] : Bucket)).getD i [] = [] := by
      rw [List.getD_eq_getElem?_getD, List.getElem?_replicate]
      split <;> rfl
    rw [bucket, hget, hnil]
    rfl

theorem newSize_toNat (h : 2 * s.dict.length < 2 ^ 32) :
    s.newSize.toNat = 2 * s.dict.length := by
  rw [newSize, UInt32.toNat_ofNat', Nat.mod_eq_of_lt h]

theorem resize_isOk (h : s.dict.length ≤ s.newSize.toNat) : ∃ g, s.resize = .ok g := by
  obtain ⟨d, hd⟩ : ∃ d, s.triples.foldlM (fun dict t => pushBack dict (s.newIndex t.key) t)
      (List.replicate s.newSize.toNat []) = .ok d := by
    refine foldlM_pushBack_isOk fun t ht => ?_
    obtain ⟨i, hi⟩ := mem_triples.1 ht
    have hpos : 0 < s.dict.length := by
      by_contra hpos
      rw [bucket_of_length_le (by omega)] at hi
      cases hi
    rw [List.length_replicate]
    -- the remainder by the old size is below the new size, also when cut to 32 bits
    have := place_lt hpos t.key
    have := Nat.mod_le (s.place t.key) (2 ^ 32)
    simp only [newIndex, UInt32.toNat_ofNat']
    omega
  rw [resize_eq, hd]
  exact ⟨_, rfl⟩

theorem getLoadFactor_eq (hpos : 0 < s.dict.length) :
    s.getLoadFactor = .ok (s.numElements.toNat / s.dict.length) := by
  simp [getLoadFactor, Nat.pos_iff_ne_zero.1 hpos]

theorem grow_cases (h : s.grow = .ok g) :
    0 < s.dict.length ∧ ((¬ s.Grows ∧ g = s) ∨ (s.Grows ∧ s.resize = .ok g)) := by
  obtain ⟨n, hn, h⟩ := bind_eq_ok.1 h
  unfold getLoadFactor at hn
  split at hn
  · cases hn
  · rename_i hpos
    cases hn
    refine ⟨Nat.pos_of_ne_zero hpos, ?_⟩
    split at h
    · rename_i hg
      exact .inr ⟨hg, h⟩
    · rename_i hg
      cases h
      exact .inl ⟨hg, rfl⟩

theorem grow_of_not_grows (hpos : 0 < s.dict.length) (h : ¬ s.Grows) : s.grow = .ok s := by
  simp only [grow, getLoadFactor_eq hpos, bind, Except.bind,
    show ¬ s.maxLoadFactor.lt _ = true from h]
  rfl

theorem grow_of_grows (hpos : 0 < s.dict.length) (h : s.Grows) : s.grow = s.resize := by
  simp only [grow, getLoadFactor_eq hpos, bind, Except.bind,
    show s.maxLoadFactor.lt _ = true from h, ↓reduceIte]

theorem grow_isOk (hpos : 0 < s.dict.length) (hover : s.NoOverflow) : ∃ g, s.grow = .ok g := by
  by_cases hgr : s.Grows
  · have hsize := newSize_toNat (hover hgr)
    rw [grow_of_grows hpos hgr]
    exact resize_isOk (by omega)
  · exact ⟨s, grow_of_not_grows hpos hgr⟩

theorem grow_length_pos (hover : s.NoOverflow) (h : s.grow = .ok g) : 0 < g.dict.length := by
  obtain ⟨hpos, ⟨-, rfl⟩ | ⟨hgr, hre⟩⟩ := grow_cases h
  · exact hpos
  · obtain ⟨d, rfl, hlen, -⟩ := resize_cases hre
    have hsize := newSize_toNat (hover hgr)
    dsimp only
    omega

theorem grow_frame (h : s.grow = .ok g) :
    (∃ d, g = { s with dict := d }) ∧ g.triples.Perm s.triples := by
  obtain ⟨-, ⟨-, rfl⟩ | ⟨-, h⟩⟩ := grow_cases h
  · exact ⟨⟨g.dict, rfl⟩, .refl _⟩
  · obtain ⟨d, rfl, -, hperm, -⟩ := resize_cases h
    exact ⟨⟨d, rfl⟩, hperm⟩

theorem mem_grow_triples (h : s.grow = .ok g) : t ∈ g.triples ↔ t ∈ s.triples :=
  (grow_frame h).2.mem_iff

theorem grow_evictor (h : s.grow = .ok g) : g.evictor = s.evictor := by
  obtain ⟨⟨d, rfl⟩, -⟩ := grow_frame h; rfl

theorem grow_spaceUsed (h : s.grow = .ok g) : g.spaceUsed = s.spaceUsed := by
  obtain ⟨⟨d, rfl⟩, -⟩ := grow_frame h; rfl

theorem grow_maxmem (h : s.grow = .ok g) : g.maxmem = s.maxmem := by
  obtain ⟨⟨d, rfl⟩, -⟩ := grow_frame h; rfl

/-- A resize puts all the triples with a key into one bucket. -/
theorem resize_column (h : s.resize = .ok g) (i : ℕ) (k : KeyType) :
    g.column i k = if s.newIndex k = i then s.triples.filter (fun t => t.key = k) else [] := by
  obtain ⟨d, -, -, -, hb, -⟩ := resize_cases h
  rw [column, hb, List.filter_filter]
  split
  · rename_i hi
    refine List.filter_congr fun t _ => ?_
    by_cases hk : t.key = k <;> simp [hk, hi]
  · rename_i hi
    refine List.filter_eq_nil_iff.2 fun t _ => ?_
    by_cases hk : t.key = k <;> simp [hk, hi]

/-! ### Faults -/

theorem bucketIndex_ne_deep (key : KeyType) : s.bucketIndex key ≠ .error .deep := by
  unfold bucketIndex
  split <;> simp

theorem pushBack_ne_deep (d : List Bucket) (i : ℕ) (t : Triple) :
    pushBack d i t ≠ .error .deep := by
  unfold pushBack
  split <;> simp

theorem foldlM_pushBack_ne_deep (f : Triple → ℕ) (l : List Triple) (d : List Bucket) :
    l.foldlM (fun dict t => pushBack dict (f t) t) d ≠ .error .deep := by
  induction l generalizing d with
  | nil => intro h; cases h
  | cons t l ih =>
    intro h
    rw [List.foldlM_cons, bind_eq_error] at h
    rcases h with h | ⟨d', -, h⟩
    exacts [pushBack_ne_deep _ _ _ h, ih d' h]

theorem resize_ne_deep : s.resize ≠ .error .deep := by
  rw [resize_eq]
  intro h
  cases hd : s.triples.foldlM (fun dict t => pushBack dict (s.newIndex t.key) t)
      (List.replicate s.newSize.toNat []) with
  | error f =>
    rw [hd] at h
    cases h
    exact foldlM_pushBack_ne_deep _ _ _ hd
  | ok d => rw [hd] at h; cases h

theorem grow_ne_deep : s.grow ≠ .error .deep := by
  intro h
  rcases bind_eq_error.1 h with h | ⟨n, -, h⟩
  · unfold getLoadFactor at h
    split at h <;> cases h
  · split at h
    · exact resize_ne_deep h
    · cases h

theorem del_ne_deep : s.del key ≠ .error .deep := by
  intro h
  rcases bind_eq_error.1 h with h | ⟨i, -, h⟩
  · exact bucketIndex_ne_deep _ h
  · split at h <;> cases h

/-! ### Reset -/

theorem mem_reset_bucket {i : ℕ} (h : t ∈ s.reset.bucket i) : t = Triple.default := by
  simp only [bucket, reset, List.getD_eq_getElem?_getD, List.getElem?_map] at h
  cases hd : s.dict[i]? <;> simp_all

theorem mem_reset_triples (h : t ∈ s.reset.triples) : t = Triple.default := by
  obtain ⟨i, hi⟩ := mem_triples.1 h
  exact mem_reset_bucket hi

theorem new_triples (maxmem : UInt32) (f : FloatVal) (e : Option ε)
    (h : Option (KeyType → UInt64)) : (new maxmem f e h).triples = [] :=
  flatten_replicate_nil _

/-! ### Lookup and `set` -/

section Evictor

variable [Evictor ε]

@[simp] theorem touchKey_triples : (s.touchKey key).triples = s.triples := rfl
@[simp] theorem touchKey_lookup : (s.touchKey key).lookup k = s.lookup k := rfl

theorem get_eq (h : 0 < s.dict.length) (n : UInt32) : s.get key n =
    match s.lookup key with
    | some it =>
      match it.val with
      | some storedVal =>
        .ok (some storedVal, UInt32.ofNat (storedVal.strlen + 1), s.touchKey key)
      | none => .error .nullStrlen
    | none => .ok (none, n, s) := by
  simp only [get, bucketIndex_eq_ok.2 ⟨h, rfl⟩, bind, Except.bind]
  rfl

theorem get_cases {n n' : UInt32} {v : ValType} (h : s.get key n = .ok (v, n', s')) :
    0 < s.dict.length ∧ ((s.lookup key = none ∧ v = none ∧ n' = n ∧ s' = s) ∨
      ∃ t w, s.lookup key = some t ∧ t.val = some w ∧ v = some w ∧
        n' = UInt32.ofNat (w.strlen + 1) ∧ s' = s.touchKey key) := by
  have hpos : 0 < s.dict.length := by
    obtain ⟨i, hi, -⟩ := bind_eq_ok.1 h
    exact (bucketIndex_eq_ok.1 hi).1
  refine ⟨hpos, ?_⟩
  rw [get_eq hpos] at h
  cases hl : s.lookup key with
  | none =>
    rw [hl] at h
    cases h
    exact .inl ⟨rfl, rfl, rfl, rfl⟩
  | some t =>
    cases hv : t.val with
    | none => simp only [hl, hv] at h; cases h
    | some w =>
      simp only [hl, hv] at h
      cases h
      exact .inr ⟨t, w, rfl, hv, rfl, rfl, rfl⟩

theorem get_of_lookup (h : s.lookup key = some t) {v : CStr} (hv : t.val = some v) (n : UInt32) :
    s.get key n = .ok (some v, UInt32.ofNat (v.strlen + 1), s.touchKey key) := by
  rw [get_eq (length_pos_of_lookup h), h]
  simp only [hv]

/-- The ways through an activation of `set`.  `g` is the cache after the growth check; what
happens to the evictor is written last, since the table does not depend on it. -/
inductive Activation (s : Impl ε) (key : KeyType) (val : ValType) (size : UInt32) :
    Exit → Impl ε → Prop
  | stored {g : Impl ε} : s.grow = .ok g → 0 < g.dict.length → g.Fits size →
      g.lookup key = none → Activation s key val size .stored ((g.push key val size).touchKey key)
  | overwrites {g g' : Impl ε} {t : Triple} {w : CStr} : s.grow = .ok g → g.Fits size →
      t.val = some w → g.Deletes key t g' →
      Activation s key val size .overwrites (g'.touchKey key)
  | evicts {g g' : Impl ε} {e : ε} {t : Triple} : s.grow = .ok g → ¬ g.Fits size →
      g.evictor = some e → g.Deletes (Evictor.evict e).1 t g' →
      Activation s key val size (.evicts (Evictor.evict e).1)
        { g' with evictor := some (Evictor.evict e).2 }
  | misses {g : Impl ε} {e : ε} : s.grow = .ok g → ¬ g.Fits size → g.evictor = some e →
      g.lookup (Evictor.evict e).1 = none →
      Activation s key val size (.misses (Evictor.evict e).1)
        { g with evictor := some (Evictor.evict e).2 }
  | refused {g : Impl ε} : s.grow = .ok g → ¬ g.Fits size → g.evictor = none →
      Activation s key val size .refused g

theorem setBody_cases {e : Exit} (h : s.setBody key val size = .ok (e, s')) :
    s.Activation key val size e s' := by
  rw [setBody, bind_eq_ok] at h
  obtain ⟨g, hg, h⟩ := h
  split at h
  · rename_i hfit
    rw [bind_eq_ok] at h
    obtain ⟨⟨v, n, g'⟩, hget, h⟩ := h
    obtain ⟨hpos, ⟨hl, rfl, -, rfl⟩ | ⟨t, w, hl, hv, rfl, -, rfl⟩⟩ := get_cases hget
    · dsimp only at h
      rw [bind_eq_ok] at h
      obtain ⟨i, hi, h⟩ := h
      obtain ⟨-, rfl⟩ := bucketIndex_eq_ok.1 hi
      rw [bind_eq_ok] at h
      obtain ⟨d, hd, h⟩ := h
      obtain ⟨-, rfl⟩ := pushBack_ok hd
      cases h
      exact .stored hg hpos hfit hl
    · dsimp only at h
      rw [bind_eq_ok] at h
      obtain ⟨⟨removed, g'⟩, hdel, h⟩ := h
      -- `get` has touched the evictor only, so `del` finds the triple that `get` has found
      obtain ⟨-, ⟨-, -, hno⟩ | ⟨-, t', hdels⟩⟩ := del_cases hdel
      · rw [touchKey_lookup, hl] at hno
        cases hno
      · cases h
        have ht : t = t' := Option.some.inj (hl.symm.trans hdels.lookup_eq)
        subst ht
        obtain ⟨g'', hd, rfl⟩ := hdels.of_evictor
        have he : g''.evictor = g.evictor := hd.frame.2.1
        have hact : s.Activation key val size .overwrites _ := .overwrites hg hfit hv hd
        rw [touchKey, he] at hact
        exact hact
  · rename_i hfit
    cases he : g.evictor with
    | none =>
      rw [he] at h
      cases h
      exact .refused hg hfit he
    | some e' =>
      rw [he] at h
      dsimp only at h
      rw [bind_eq_ok] at h
      obtain ⟨⟨removed, g'⟩, hdel, h⟩ := h
      obtain ⟨-, ⟨rfl, rfl, hno⟩ | ⟨rfl, t, hdels⟩⟩ := del_cases hdel
      · cases h
        exact .misses hg hfit he hno
      · cases h
        obtain ⟨g'', hd, rfl⟩ := hdels.of_evictor
        exact .evicts hg hfit he hd

theorem setBody_isOk (hg : s.grow = .ok g) (hpos : 0 < g.dict.length)
    (hnull : g.Fits size → ∀ t, g.lookup key = some t → t.val ≠ none) :
    ∃ p, s.setBody key val size = .ok p := by
  simp only [setBody, hg, bind, Except.bind]
  split
  · rename_i hfit
    rw [get_eq hpos]
    cases hl : g.lookup key with
    | none =>
      simp only [bucketIndex_eq_ok.2 ⟨hpos, rfl⟩, pushBack, place_lt hpos key, ↓reduceIte]
      exact ⟨_, rfl⟩
    | some t =>
      cases hv : t.val with
      | none => exact absurd hv (hnull hfit t hl)
      | some w =>
        obtain ⟨p, hp⟩ := del_isOk (s := g.touchKey key) hpos key
        simp only [hv, hp]
        exact ⟨_, rfl⟩
  · cases he : g.evictor with
    | none => exact ⟨_, rfl⟩
    | some e =>
      obtain ⟨⟨removed, g'⟩, hp⟩ :=
        del_isOk (s := { g with evictor := some (Evictor.evict e).2 }) hpos (Evictor.evict e).1
      simp only [hp]
      cases removed <;> exact ⟨_, rfl⟩

theorem setBody_of_null (hg : s.grow = .ok g) (hpos : 0 < g.dict.length) (hfit : g.Fits size)
    (hl : g.lookup key = some t) (hv : t.val = none) :
    s.setBody key val size = .error .nullStrlen := by
  have hfit' : g.spaceUsed + size ≤ g.maxmem := hfit
  simp only [setBody, hg, bind, Except.bind, if_pos hfit', get_eq hpos, hl, hv]

/-- Every recursive call of `set` follows the removal of a triple. -/
theorem triples_length_of_calls {a a' : Impl ε} (h : (setLoop key val size).Calls a a') :
    a'.triples.length < a.triples.length := by
  obtain ⟨e, hb, hag⟩ := h
  cases setBody_cases hb with
  | overwrites hg hfit hv hdel =>
    have h1 := (grow_frame hg).2.length_eq
    have h2 := hdel.triples_perm.length_eq
    rw [List.length_cons] at h2
    rw [touchKey_triples]
    omega
  | evicts hg hfit he hdel =>
    have h1 := (grow_frame hg).2.length_eq
    have h2 := hdel.triples_perm.length_eq
    rw [List.length_cons] at h2
    simp only [triples] at h1 h2 ⊢
    omega
  | stored => simp [setLoop, Exit.again] at hag
  | misses => simp [setLoop, Exit.again] at hag
  | refused => simp [setLoop, Exit.again] at hag

theorem set_ends {es : List Exit} (h : s.set key val size = .ok (es, s')) :
    (setLoop key val size).Ends s es s' :=
  Loop.ends_of_run h

/-- A `set` that stores its triple ends by pushing it into a bucket without its key. -/
theorem set_stored {es : List Exit} (h : s.set key val size = .ok (es, s'))
    (hes : Exit.stored ∈ es) : ∃ a g, (setLoop key val size).Entered s a ∧ a.grow = .ok g ∧
      0 < g.dict.length ∧ g.Fits size ∧ g.lookup key = none ∧
      s' = (g.push key val size).touchKey key := by
  obtain ⟨a, a', ha, hb, hlast, -⟩ := (set_ends h).of_mem hes
  obtain rfl := hlast rfl
  cases setBody_cases hb with
  | stored hg hpos hfit hl => exact ⟨a, _, ha, hg, hpos, hfit, hl, rfl⟩

theorem get_of_stored {es : List Exit} {v : CStr} (h : s.set key (some v) size = .ok (es, s'))
    (hes : Exit.stored ∈ es) (n : UInt32) : ∃ n' s'', s'.get key n = .ok (some v, n', s'') := by
  obtain ⟨a, g, -, -, hpos, -, hno, rfl⟩ := set_stored h hes
  have hl : ((g.push key (some v) size).touchKey key).lookup key = some ⟨key, size, some v⟩ :=
    push_lookup_self hpos hno
  exact ⟨_, _, get_of_lookup hl rfl n⟩

/-- `set` does not depend on how many activations it provides for, if there are enough. -/
theorem set_eq_run {n : ℕ} (h : s.triples.length < n) :
    s.set key val size = (setLoop key val size).run .deep n s :=
  Loop.run_eq_run (μ := fun a => a.triples.length) (fun _ _ => triples_length_of_calls) _ _ _
    (Nat.lt_succ_self _) h

theorem get_ne_deep (n : UInt32) : s.get key n ≠ .error .deep := by
  intro h
  rcases bind_eq_error.1 h with h | ⟨i, -, h⟩
  · exact bucketIndex_ne_deep _ h
  · split at h
    · split at h <;> cases h
    · cases h

theorem setBody_ne_deep : s.setBody key val size ≠ .error .deep := by
  intro h
  rw [setBody, bind_eq_error] at h
  rcases h with h | ⟨g, -, h⟩
  · exact grow_ne_deep h
  split at h
  · rcases bind_eq_error.1 h with h | ⟨⟨v, n, g'⟩, -, h⟩
    · exact get_ne_deep 0 h
    · cases v with
      | some w =>
        rcases bind_eq_error.1 h with h | ⟨_, -, h⟩
        exacts [del_ne_deep h, nomatch h]
      | none =>
        rcases bind_eq_error.1 h with h | ⟨i, -, h⟩
        · exact bucketIndex_ne_deep _ h
        · rcases bind_eq_error.1 h with h | ⟨_, -, h⟩
          exacts [pushBack_ne_deep _ _ _ h, nomatch h]
  · split at h
    · rcases bind_eq_error.1 h with h | ⟨⟨removed, _⟩, -, h⟩
      · exact del_ne_deep h
      · cases removed <;> cases h
    · cases h

/-- **`set` provides for enough activations.** -/
theorem set_ne_deep : s.set key val size ≠ .error .deep :=
  Loop.run_ne_deep (μ := fun a => a.triples.length) (fun _ _ => triples_length_of_calls)
    (fun _ => setBody_ne_deep) _ _ (Nat.lt_succ_self _)

theorem set_isOk (h : ∀ a, (setLoop key val size).Entered s a →
    ∃ p, a.setBody key val size = .ok p) : ∃ p, s.set key val size = .ok p :=
  Loop.run_ok (μ := fun a => a.triples.length) (fun _ _ => triples_length_of_calls) _ _
    (Nat.lt_succ_self _) h

end Evictor

end Impl

end CrankItUp
