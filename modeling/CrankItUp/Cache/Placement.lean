import CrankItUp.Cache.Guard

/-!
# Where the triples of a key lie

A search for a key looks into one bucket.  `resize` distributes the triples by the remainder
that belongs to the *old* size of the table, and a search computes the one that belongs to the
new size, so that a triple can get out of sight.

* `Impl.KeepsFound s k` : if the table grows now, a search for `k` finds the triple it found
  before.  Placeholders, the default triples left behind by `reset`, do not count.
* `Impl.TidyAt s k` : the table has at most one triple with the key `k` that is no placeholder,
  and it is the one that a search finds.  Every operation preserves this, growth under
  `KeepsFound`.
-/

namespace CrankItUp

/-- The call does not store a placeholder. -/
def Op.Genuine : Op → Prop
  | .set key val size => (⟨key, size, val⟩ : Triple) ≠ Triple.default
  | _ => True

instance : ∀ o : Op, Decidable o.Genuine
  | .set key val size => inferInstanceAs (Decidable ((⟨key, size, val⟩ : Triple) ≠ _))
  | .get _ _ | .del _ | .spaceUsed | .reset => isTrue trivial

namespace Impl

variable {ε : Type} (s : Impl ε)

/-- The index of the bucket in which a key is searched for once the table has been resized. -/
def nextPlace (key : KeyType) : ℕ := (s.hasher key).toNat % s.newSize.toNat

/-- The triple that a search for the key finds once the table has been resized. -/
def nextLookup (key : KeyType) : Option Triple :=
  if s.newIndex key = s.nextPlace key then findKey key s.triples else none

/-- If the table grows now, a search for the key finds the triple that it finds before. -/
def KeepsFound (key : KeyType) : Prop :=
  s.Grows → ∀ t ∈ s.lookup key, t ≠ Triple.default → s.nextLookup key = some t

instance (key : KeyType) : Decidable (s.KeepsFound key) := inferInstanceAs (Decidable (_ → _))

/-- There is at most one triple with the key, and a search finds it. -/
structure TidyAt (key : KeyType) : Prop where
  found : ∀ t ∈ s.triples, t.key = key → t ≠ Triple.default → s.lookup key = some t
  single : s.triples.countP (fun t => t.key = key ∧ t ≠ Triple.default) ≤ 1

variable {s} {s' g : Impl ε} {key k : KeyType} {val : ValType} {size : UInt32} {t u : Triple}

theorem resize_lookup (h : s.resize = .ok g) (key : KeyType) :
    g.lookup key = s.nextLookup key := by
  have hplace : g.place key = s.nextPlace key := by
    obtain ⟨d, rfl, hlen, -⟩ := resize_cases h
    simp only [place, nextPlace, hlen]
  rw [lookup_eq_head?, hplace, resize_column h, nextLookup, findKey_eq_head?]
  split <;> rfl

/-- The condition on growth is exact. -/
theorem keepsFound_iff (h : s.grow = .ok g) : s.KeepsFound key ↔
    ∀ t, s.lookup key = some t → t ≠ Triple.default → g.lookup key = some t := by
  obtain ⟨-, ⟨hno, rfl⟩ | ⟨hgr, hre⟩⟩ := grow_cases h
  · exact ⟨fun _ t hl _ => hl, fun _ hgr => absurd hgr hno⟩
  · rw [resize_lookup hre]
    exact ⟨fun hk t hl ht => hk hgr t hl ht, fun hk _ t hl ht => hk t hl ht⟩

/-! ### At most one triple for a key -/

namespace TidyAt

theorem eq_default (h : s.TidyAt key) (hl : ∀ u ∈ s.lookup key, u = Triple.default)
    (ht : t ∈ s.triples) (hk : t.key = key) : t = Triple.default := by
  by_contra hne
  exact hne (hl t (h.found t ht hk hne))

theorem grow (h : s.TidyAt key) (hg : s.grow = .ok g) (hkeep : s.KeepsFound key) :
    g.TidyAt key := by
  have hperm := (grow_frame hg).2
  refine ⟨fun t ht hk hne => ?_, ?_⟩
  · exact (keepsFound_iff hg).1 hkeep t (h.found t (hperm.mem_iff.1 ht) hk hne) hne
  · rw [hperm.countP_eq]
    exact h.single

theorem push (h : s.TidyAt k) (hpos : 0 < s.dict.length) (hl : s.lookup key = none) :
    (s.push key val size).TidyAt k := by
  have hperm : (s.push key val size).triples.Perm (⟨key, size, val⟩ :: s.triples) :=
    push_triples_perm hpos
  have hmem : ∀ t, t ∈ (s.push key val size).triples ↔ t = ⟨key, size, val⟩ ∨ t ∈ s.triples :=
    fun t => by rw [hperm.mem_iff, List.mem_cons]
  by_cases hk : k = key
  · subst hk
    have hold : ∀ t ∈ s.triples, t.key = k → t = Triple.default :=
      fun t => h.eq_default (by simp [hl])
    refine ⟨fun t ht htk hne => ?_, ?_⟩
    · rcases (hmem t).1 ht with rfl | ht
      · exact push_lookup_self hpos hl
      · exact absurd (hold t ht htk) hne
    · rw [hperm.countP_eq, List.countP_cons, List.countP_eq_zero.2]
      · split <;> omega
      · intro t ht
        simpa using hold t ht
  · refine ⟨fun t ht htk hne => ?_, ?_⟩
    · rw [push_lookup_ne hk]
      rcases (hmem t).1 ht with rfl | ht
      · exact absurd htk.symm hk
      · exact h.found t ht htk hne
    · rw [hperm.countP_eq, List.countP_cons_of_neg (by simp [Ne.symm hk])]
      exact h.single

theorem lookup_of_deletes (h : s.TidyAt key) (hd : s.Deletes key t s') (hu : u ∈ s'.triples)
    (hk : u.key = key) : u = Triple.default := by
  by_contra hne
  have hmem : u ∈ s.triples := hd.triples_perm.mem_iff.2 (List.mem_cons_of_mem _ hu)
  obtain rfl : t = u := Option.some.inj (hd.lookup_eq.symm.trans (h.found u hmem hk hne))
  have hcount := hd.triples_perm.countP_eq fun t => t.key = key ∧ t ≠ Triple.default
  rw [List.countP_cons_of_pos (by simp [hk, hne])] at hcount
  have hpos : 0 < s'.triples.countP fun t => t.key = key ∧ t ≠ Triple.default :=
    List.countP_pos_iff.2 ⟨t, hu, by simp [hk, hne]⟩
  have := h.single
  omega

theorem deletes (h : s.TidyAt k) (hd : s.Deletes key t s') : s'.TidyAt k := by
  have hperm := hd.triples_perm
  constructor
  · intro u hu huk hne
    by_cases hk : k = key
    · subst hk
      exact absurd (h.lookup_of_deletes hd hu huk) hne
    · rw [hd.lookup_ne hk]
      exact h.found u (hperm.mem_iff.2 (List.mem_cons_of_mem _ hu)) huk hne
  · have hle := h.single
    rw [hperm.countP_eq, List.countP_cons] at hle
    omega

theorem of_evictor (h : s.TidyAt key) (e : Option ε) : { s with evictor := e }.TidyAt key :=
  ⟨h.found, h.single⟩

theorem reset (key : KeyType) : s.reset.TidyAt key := by
  refine ⟨fun t ht _ hne => absurd (mem_reset_triples ht) hne, ?_⟩
  rw [List.countP_eq_zero.2]
  · omega
  · intro t ht
    simpa using fun _ => mem_reset_triples ht

theorem new (maxmem : UInt32) (f : FloatVal) (e : Option ε) (h : Option (KeyType → UInt64))
    (key : KeyType) : (new maxmem f e h).TidyAt key := by
  constructor <;> simp [new_triples]

end TidyAt

/-! ### Tables without placeholders -/

/-- There are no placeholders in the table. -/
def Genuine (s : Impl ε) : Prop := ∀ t ∈ s.triples, t ≠ Triple.default

theorem Genuine.grow (h : s.Genuine) (hg : s.grow = .ok g) : g.Genuine :=
  fun t ht => h t ((mem_grow_triples hg).1 ht)

theorem Genuine.deletes (h : s.Genuine) (hd : s.Deletes key t s') : s'.Genuine :=
  fun u hu => h u (hd.subset u hu)

theorem Genuine.push (h : s.Genuine) (hpos : 0 < s.dict.length)
    (hval : (⟨key, size, val⟩ : Triple) ≠ Triple.default) : (s.push key val size).Genuine := by
  intro t ht
  rcases (mem_push_triples hpos).1 ht with rfl | ht
  exacts [hval, h t ht]

theorem new_genuine (maxmem : UInt32) (f : FloatVal) (e : Option ε)
    (hash : Option (KeyType → UInt64)) : (new maxmem f e hash).Genuine :=
  fun t ht => by simp [new_triples] at ht

/-! ### The calls -/

section Evictor

variable [Evictor ε]

theorem Call.tidyAt {o : Op} {r : Result} (h : s.Call o r s') (hs : s.TidyAt k)
    (hkeep : s.EachActivation (fun a _ _ => a.KeepsFound k) o) : s'.TidyAt k := by
  refine h.induction (P := fun a => a.TidyAt k) hs (eachDeletion_true s o) ?_ ?_ ?_ ?_ ?_
  · exact fun _ x _ ha => ha.of_evictor x
  · rintro key val size a g rfl ha hat hg
    exact hat.grow hg (hkeep a ha)
  · exact fun _ _ _ _ _ _ _ _ hg hpos _ hl => hg.push hpos hl
  · exact fun _ _ _ _ hg _ hd => hg.deletes hd
  · exact fun _ => .reset k

theorem Activation.genuine {key : KeyType} {val : ValType} {size : UInt32} {e : Exit}
    (h : s.Activation key val size e s') (hs : s.Genuine)
    (hval : (⟨key, size, val⟩ : Triple) ≠ Triple.default) : s'.Genuine := by
  refine h.induction (P := Genuine) (fun _ _ _ ha => ha) ?_ ?_ ?_
  · exact fun g hg => hs.grow hg
  · exact fun g _ hgen hpos _ _ => hgen.push hpos hval
  · exact fun g _ _ _ _ hgen _ hd => hgen.deletes hd

end Evictor

end Impl

end CrankItUp
