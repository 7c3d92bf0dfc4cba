import CrankItUp.Cache.Conservation
import CrankItUp.Cache.History

/-!
# Where the triples come from

As long as the cache is not reset, every triple in the table has been stored by a call of `set`
that the history of the run contains.

* `StoredIn H t` : a call of the history `H` has stored the triple `t`.
* `Impl.get_size_eq_iff` : the size that `get` reports is the size that was given to `set` exactly
  if the first NUL of the value is its last byte.
* `Impl.fits_iff_exact` : in runs that set distinct keys without an evictor, the fit test of `set`
  is the exact one exactly if its sum does not wrap.
-/

namespace CrankItUp

/-- The triple has been stored by a call of the history. -/
def StoredIn (H : List (Op × Result)) (t : Triple) : Prop :=
  ∃ es, (.set t.key t.val t.size, .set es) ∈ H ∧ Exit.stored ∈ es

theorem StoredIn.cons {H : List (Op × Result)} {t : Triple} (h : StoredIn H t)
    (c : Op × Result) : StoredIn (c :: H) t := by
  obtain ⟨es, hmem, hes⟩ := h
  exact ⟨es, List.mem_cons_of_mem _ hmem, hes⟩

/-- The keys that the calls of the history set. -/
def setKeys (H : List (Op × Result)) : List KeyType :=
  H.filterMap fun c =>
    match c.1 with
    | .set key _ _ => some key
    | _ => none

theorem StoredIn.mem_setKeys {H : List (Op × Result)} {t : Triple} (h : StoredIn H t) :
    t.key ∈ setKeys H := by
  obtain ⟨es, hmem, -⟩ := h
  exact List.mem_filterMap.2 ⟨_, hmem, rfl⟩

/-- The call is a `set`. -/
def Op.IsSet : Op → Prop
  | .set _ _ _ => True
  | _ => False

instance : ∀ o : Op, Decidable o.IsSet
  | .set _ _ _ => isTrue trivial
  | .get _ _ | .del _ | .spaceUsed | .reset => isFalse id

theorem Op.IsSet.ne_reset {o : Op} (h : o.IsSet) : o ≠ .reset := by
  rintro rfl
  exact h

/-- The first NUL in memory is the last one of `n` bytes, where `n` counts modulo `2 ^ 32`. -/
def CStr.EndsAt (v : CStr) (n : UInt32) : Prop :=
  ∃ pre post, v.bytes = pre ++ 0 :: post ∧ 0 ∉ pre ∧ (pre.length + 1) % 2 ^ 32 = n.toNat

theorem CStr.ofNat_strlen_eq_iff {v : CStr} {n : UInt32} :
    UInt32.ofNat (v.strlen + 1) = n ↔ v.EndsAt n := by
  rw [← UInt32.toNat_inj, UInt32.toNat_ofNat']
  have hlen : ∀ pre post, v.bytes = pre ++ 0 :: post → 0 ∉ pre → v.strlen = pre.length := by
    intro pre post hb hpre
    rw [strlen, hb, List.idxOf_append_of_notMem hpre, List.idxOf_cons_self, Nat.add_zero]
  constructor
  · intro h
    obtain ⟨pre, post, hb, hpre⟩ := List.eq_append_cons_of_mem v.terminated
    exact ⟨pre, post, hb, hpre, hlen pre post hb hpre ▸ h⟩
  · rintro ⟨pre, post, hb, hpre, h⟩
    rwa [hlen pre post hb hpre]

namespace Impl

variable {ε : Type} [Evictor ε] {s s' : Impl ε} {key k : KeyType} {val : ValType}
  {size : UInt32} {es : List Exit} {H : List (Op × Result)} {maxmem : UInt32}
  {maxLoadFactor : FloatVal} {evictor : Option ε} {hasher : Option (KeyType → UInt64)}

theorem Call.storedIn {o : Op} {r : Result} (h : s.Call o r s') (ho : o ≠ .reset)
    (hs : ∀ t ∈ s.triples, StoredIn H t) : ∀ t ∈ s'.triples, StoredIn ((o, r) :: H) t := by
  intro t ht
  cases h with
  | set hset =>
    obtain ⟨ts, -, hperm⟩ := conserves_of_ends (set_ends hset)
    have hmem := hperm.mem_iff.1 (List.mem_append_right ts ht)
    rcases List.mem_append.1 hmem with hmem | hmem
    · split at hmem
      · rename_i hes
        obtain rfl := List.mem_singleton.1 hmem
        exact ⟨_, List.mem_cons_self, hes⟩
      · cases hmem
    · exact (hs t hmem).cons _
  | get hget =>
    obtain ⟨-, ⟨-, -, -, rfl⟩ | ⟨_, _, -, -, -, -, rfl⟩⟩ := get_cases hget
    exacts [(hs t ht).cons _, (hs t ht).cons _]
  | del hdel =>
    obtain ⟨-, ⟨-, rfl, -⟩ | ⟨-, _, hd⟩⟩ := del_cases hdel
    exacts [(hs t ht).cons _, (hs t (hd.subset t ht)).cons _]
  | spaceUsed => exact (hs t ht).cons _
  | reset => exact absurd rfl ho

theorem storedIn_of_reaches
    (h : (library ε).Reaches (fun _ o => o ≠ .reset)
      (new maxmem maxLoadFactor evictor hasher) H s) :
    ∀ t ∈ s.triples, StoredIn H t :=
  h.invariant (I := fun H s => ∀ t ∈ s.triples, StoredIn H t)
    (fun t ht => by simp [new_triples] at ht)
    fun _ _ _ _ _ hs ho hst => (step_cases hst).storedIn ho hs

/-! ### The size that is reported -/

/-- **The size of a value.**  In a run without resets, a value that `get` returns has been stored
by a call of `set`, and takes up the size that was given to that call.  The size that `get`
reports is this one exactly if the first NUL of the value is the last of so many bytes. -/
theorem get_size_eq_iff {v : CStr} {n n' : UInt32}
    (h : (library ε).Reaches (fun _ o => o ≠ .reset) (new maxmem maxLoadFactor evictor hasher) H s)
    (hget : s.get k n = .ok (some v, n', s')) :
    ∃ size, s.lookup k = some ⟨k, size, some v⟩ ∧ StoredIn H ⟨k, size, some v⟩ ∧
      (n' = size ↔ v.EndsAt size) := by
  obtain ⟨-, ⟨-, hv, -⟩ | ⟨t, w, hl, hw, hv, rfl, -⟩⟩ := get_cases hget
  · cases hv
  · obtain rfl : v = w := Option.some.inj hv
    obtain ⟨key, size, val⟩ := t
    obtain rfl : key = k := lookup_key hl
    obtain rfl : val = some v := hw
    exact ⟨size, hl, storedIn_of_reaches h _ (lookup_mem_triples hl), CStr.ofNat_strlen_eq_iff⟩

/-- Two bytes and a NUL, stored with the size 3. -/
theorem get_size_eq_text : ∃ H s, (library LRU).exec (small 1000 (some LRU.new))
    [.set [1] (text "ab") 3] = some (H, s) ∧
    ∃ n' s', s.get [1] 0 = .ok (text "ab", n', s') ∧ n' = 3 :=
  Machine.exists_exec ⟨_, _, rfl, rfl, _, _, rfl⟩ (by decide) fun _ s h
    (hD : s.lookup [1] = some ⟨[1], 3, text "ab"⟩ ∧
      ∃ n' s', s.get [1] 0 = .ok (text "ab", n', s')) =>
    have ⟨hl, n', s', hget⟩ := hD
    have ⟨size, hl', _, hiff⟩ := get_size_eq_iff h hget
    have hsize : size = 3 := congrArg Triple.size (Option.some.inj (hl'.symm.trans hl))
    ⟨n', s', hget, hsize ▸ hiff.2 (hsize ▸ ⟨[97, 98], [], rfl, by decide, rfl⟩)⟩

/-- The six bytes `ab`, NUL, `cd`, NUL. -/
def blob : ValType := some ⟨[97, 98, 0, 99, 100, 0], by decide⟩

/-- The size of a blob is reported as that of the text before its first NUL. -/
theorem get_size_ne_blob : ∃ s, (library LRU).exec (small 1000 (some LRU.new))
    [.set [1] blob 6, .spaceUsed, .get [1] 0] = some ([(.get [1] 0, .get blob 3),
      (.spaceUsed, .spaceUsed 6), (.set [1] blob 6, .set [.stored])], s) :=
  ⟨_, rfl⟩

/-! ### The fit test -/

theorem set_of_fresh (he : s.evictor = none) (hfresh : ∀ t ∈ s.triples, t.key ≠ key)
    (h : s.set key val size = .ok (es, s')) :
    (s.Fits size ∧ es = [.stored] ∧ s'.spaceUsed = s.spaceUsed + size) ∨
      (¬ s.Fits size ∧ es = [.refused] ∧ s'.spaceUsed = s.spaceUsed) := by
  have hfits : ∀ g, s.grow = .ok g → (g.Fits size ↔ s.Fits size) := fun g hg => by
    rw [Fits, Fits, grow_spaceUsed hg, grow_maxmem hg]
  have hgone : ∀ g t, s.grow = .ok g → g.lookup key ≠ some t := fun g t hg hl =>
    hfresh t ((mem_grow_triples hg).1 (lookup_mem_triples hl)) (lookup_key hl)
  cases set_ends h with
  | last hb hag =>
    cases setBody_cases hb with
    | @stored g hg _ hfit _ =>
      refine .inl ⟨(hfits g hg).1 hfit, rfl, ?_⟩
      rw [← grow_spaceUsed hg]
      rfl
    | overwrites => cases hag
    | evicts => cases hag
    | misses hg _ hev _ => simp [grow_evictor hg, he] at hev
    | refused hg hfit _ => exact .inr ⟨fun h => hfit ((hfits _ hg).2 h), rfl, grow_spaceUsed hg⟩
  | more hb hag _ =>
    cases setBody_cases hb with
    | stored => cases hag
    | overwrites hg _ _ hd => exact absurd hd.lookup_eq (hgone _ _ hg)
    | evicts hg _ hev _ => simp [grow_evictor hg, he] at hev
    | misses => cases hag
    | refused => cases hag

/-- A run of calls of `set` with distinct keys, without an evictor, keeps the counter within
`maxmem`. -/
theorem spaceUsed_le_of_distinct
    (h : (library ε).Reaches (fun _ o => o.IsSet) (new maxmem maxLoadFactor none hasher) H s)
    (hkeys : (setKeys H).Nodup) : s.spaceUsed ≤ s.maxmem := by
  induction h with
  | start => exact UInt32.zero_le
  | @call H s s' o r hrun ho hst ih =>
    have hstored := storedIn_of_reaches (hrun.mono fun _ _ ho => ho.ne_reset)
    have he := evictor_eq_none_of_reaches hrun rfl
    have hmax := (step_cases hst).maxmem_eq
    cases step_cases hst with
    | @set key val size es s' hset =>
      obtain ⟨hnew, hkeys⟩ := List.nodup_cons.1 hkeys
      have hfresh : ∀ t ∈ s.triples, t.key ≠ key := by
        rintro t ht rfl
        exact hnew (hstored t ht).mem_setKeys
      rcases set_of_fresh he hfresh hset with ⟨hfit, -, hused⟩ | ⟨-, -, hused⟩
      · rw [hused, hmax]
        exact hfit
      · rw [hused, hmax]
        exact ih hkeys
    | get => exact ho.elim
    | del => exact ho.elim
    | spaceUsed => exact ho.elim
    | reset => exact ho.elim

omit [Evictor ε] in
theorem fits_iff_toNat (h : s.spaceUsed ≤ s.maxmem) (size : UInt32) :
    (s.Fits size ↔ s.spaceUsed.toNat + size.toNat ≤ s.maxmem.toNat) ↔
      s.spaceUsed.toNat + size.toNat < 2 ^ 32 := by
  have hmax := s.maxmem.toNat_lt
  have hsize := size.toNat_lt
  rw [Fits, UInt32.le_iff_toNat_le, UInt32.toNat_add]
  rw [UInt32.le_iff_toNat_le] at h
  by_cases hlt : s.spaceUsed.toNat + size.toNat < 2 ^ 32
  · rw [Nat.mod_eq_of_lt hlt]
    exact iff_of_true Iff.rfl hlt
  · -- the sum is more than `maxmem`, but its remainder is less than the counter
    have hmod : (s.spaceUsed.toNat + size.toNat) % 2 ^ 32 ≤ s.maxmem.toNat := by omega
    refine iff_of_false (fun hiff => ?_) hlt
    have := hiff.1 hmod
    omega

/-- **The fit test.**  After a run of calls of `set` with distinct keys, without an evictor, the
next call of `set` with a new key stores its value exactly if the test passes; and the test gives
the same answer as in unbounded arithmetic exactly if its sum does not wrap. -/
theorem fits_iff_exact
    (h : (library ε).Reaches (fun _ o => o.IsSet) (new maxmem maxLoadFactor none hasher) H s)
    (hkeys : (setKeys H).Nodup) (size : UInt32) :
    ((s.Fits size ↔ s.spaceUsed.toNat + size.toNat ≤ maxmem.toNat) ↔
        s.spaceUsed.toNat + size.toNat < 2 ^ 32) ∧
      ∀ k val es s', k ∉ setKeys H → s.set k val size = .ok (es, s') →
        (Exit.stored ∈ es ↔ s.Fits size) := by
  have hmax : s.maxmem = maxmem := h.state_invariant (I := fun s => s.maxmem = maxmem) rfl
    fun _ _ _ _ hs _ hst => (step_cases hst).maxmem_eq.trans hs
  refine ⟨hmax ▸ fits_iff_toNat (spaceUsed_le_of_distinct h hkeys) size, ?_⟩
  intro k val es s' hnew hset
  have hstored := storedIn_of_reaches (h.mono fun _ _ ho => ho.ne_reset)
  have hfresh : ∀ t ∈ s.triples, t.key ≠ k := by
    rintro t ht rfl
    exact hnew (hstored t ht).mem_setKeys
  rcases set_of_fresh (evictor_eq_none_of_reaches h rfl) hfresh hset with
    ⟨hfit, rfl, -⟩ | ⟨hfit, rfl, -⟩ <;> simp [hfit]

/-- A value that fits exactly, with the largest limit there is. -/
theorem fits_exact_full : ∃ H s, (library LRU).exec (small 4294967295 none)
    [.set [1] (text "a") 4294967290, .set [2] (text "b") 3] = some (H, s) ∧
    (s.Fits 2 ↔ s.spaceUsed.toNat + 2 ≤ 4294967295) :=
  Machine.exists_exec ⟨_, _, rfl, by decide⟩ (by decide) fun H s h
    (hD : (setKeys H).Nodup ∧ s.spaceUsed.toNat + 2 < 2 ^ 32) =>
    (fits_iff_exact h hD.1 2).1.2 hD.2

/-- The sum wraps to 50, and a value of almost `2 ^ 32` bytes is stored in a cache of 100. -/
theorem fits_wrapped : ∃ H s, (library LRU).exec (small 100 none)
    [.set [1] (text "a") 100] = some (H, s) ∧ s.Fits 4294967246 ∧
    ¬ s.spaceUsed.toNat + (4294967246 : UInt32).toNat ≤ (100 : UInt32).toNat ∧
    ∃ s', s.set [2] (text "b") 4294967246 = .ok ([.stored], s') :=
  ⟨_, _, rfl, by decide, by decide, _, rfl⟩

end Impl

end CrankItUp
