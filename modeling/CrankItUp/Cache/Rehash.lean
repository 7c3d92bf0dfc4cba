import CrankItUp.Cache.Placement
import CrankItUp.Evictor.Lru

/-!
# Every triple in its bucket

* `Impl.Indexed s` : every triple lies in the bucket in which its key is searched for, and no two
  triples have the same key.
* `Impl.KeepsPlaces s` : if the table grows now, the remainder that `resize` computes for the keys
  in the table is the one that a search computes afterwards.
* `Impl.indexed_of_reaches` : the table is indexed in runs without resets in which every growth
  keeps the places; a growth that does not leaves a triple in another bucket.
-/

namespace CrankItUp

namespace Impl

variable {ε : Type} (s : Impl ε)

/-- Every triple lies in the bucket in which its key is searched for. -/
def Placed : Prop := ∀ i, ∀ t ∈ s.bucket i, i = s.place t.key

/-- Every triple lies in the bucket of its key, and is the only one with this key. -/
structure Indexed : Prop where
  placed : s.Placed
  distinct : (s.triples.map Triple.key).Nodup

/-- If the table grows now, the triples are moved to where their keys are searched for. -/
def KeepsPlaces : Prop := s.Grows → ∀ t ∈ s.triples, s.newIndex t.key = s.nextPlace t.key

instance : Decidable s.KeepsPlaces := inferInstanceAs (Decidable (_ → _))

variable {s} {s' g : Impl ε} {key k : KeyType} {val : ValType} {size : UInt32} {t : Triple}

/-! ### One effect at a time -/

theorem Deletes.mem_bucket {i : ℕ} {u : Triple} (h : s.Deletes key t s') (hu : u ∈ s'.bucket i) :
    u ∈ s.bucket i := by
  have hmem : u ∈ s'.column i u.key := mem_column.2 ⟨hu, rfl⟩
  refine (mem_column.1 (?_ : u ∈ s.column i u.key)).1
  by_cases hik : i = s.place key ∧ u.key = key
  · obtain ⟨rfl, hk⟩ := hik
    rw [hk] at hmem ⊢
    rw [h.column_eq.1]
    exact List.mem_cons_of_mem _ hmem
  · rwa [h.column_eq.2 i u.key (not_and_or.1 hik)] at hmem

theorem mem_push_bucket {i : ℕ} {u : Triple} (hpos : 0 < s.dict.length)
    (hu : u ∈ (s.push key val size).bucket i) :
    (i = s.place key ∧ u = ⟨key, size, val⟩) ∨ u ∈ s.bucket i := by
  have hmem : u ∈ (s.push key val size).column i u.key := mem_column.2 ⟨hu, rfl⟩
  by_cases hik : i = s.place key ∧ u.key = key
  · obtain ⟨rfl, hk⟩ := hik
    rw [hk, push_column_self hpos, List.mem_append, List.mem_singleton] at hmem
    exact hmem.symm.imp (fun hu => ⟨rfl, hu⟩) fun hu => (mem_column.1 hu).1
  · rw [push_column (not_and_or.1 hik)] at hmem
    exact .inr (mem_column.1 hmem).1

theorem Placed.lookup_ne_none (h : s.Placed) (ht : t ∈ s.triples) : s.lookup t.key ≠ none := by
  obtain ⟨i, hi⟩ := mem_triples.1 ht
  obtain rfl := h i t hi
  rw [lookup_eq_head?, Ne, List.head?_eq_none_iff]
  exact List.ne_nil_of_mem (mem_column.2 ⟨hi, rfl⟩)

/-- The condition on growth is exact. -/
theorem placed_grow_iff (h : s.Placed) (hg : s.grow = .ok g) : g.Placed ↔ s.KeepsPlaces := by
  obtain ⟨-, ⟨hno, rfl⟩ | ⟨hgr, hre⟩⟩ := grow_cases hg
  · exact iff_of_true h fun hgr => absurd hgr hno
  · obtain ⟨d, rfl, hlen, -, hbucket, -⟩ := resize_cases hre
    have hplace : ∀ k, Impl.place { s with dict := d } k = s.nextPlace k := fun k => by
      simp only [place, nextPlace, hlen]
    have hmem : ∀ i t, t ∈ Impl.bucket { s with dict := d } i ↔
        t ∈ s.triples ∧ s.newIndex t.key = i := fun i t => by simp [hbucket]
    constructor
    · intro hp _ t ht
      rw [← hplace]
      exact hp _ t ((hmem _ t).2 ⟨ht, rfl⟩)
    · intro hk i t ht
      obtain ⟨hst, rfl⟩ := (hmem i t).1 ht
      rw [hplace]
      exact hk hgr t hst

namespace Indexed

theorem grow (h : s.Indexed) (hg : s.grow = .ok g) (hk : s.KeepsPlaces) : g.Indexed :=
  ⟨(placed_grow_iff h.placed hg).2 hk,
    ((grow_frame hg).2.map Triple.key).nodup_iff.2 h.distinct⟩

theorem push (h : s.Indexed) (hpos : 0 < s.dict.length) (hl : s.lookup key = none) :
    (s.push key val size).Indexed := by
  constructor
  · intro i t ht
    rw [push_place]
    rcases mem_push_bucket hpos ht with ⟨rfl, rfl⟩ | ht
    exacts [rfl, h.placed i t ht]
  · -- a triple with the key would have been found
    rw [((push_triples_perm hpos).map Triple.key).nodup_iff, List.map_cons, List.nodup_cons]
    refine ⟨fun hmem => ?_, h.distinct⟩
    obtain ⟨t, ht, rfl⟩ := List.mem_map.1 hmem
    exact h.placed.lookup_ne_none ht hl

theorem deletes (h : s.Indexed) (hd : s.Deletes key t s') : s'.Indexed := by
  have hdistinct := (hd.triples_perm.map Triple.key).nodup_iff.1 h.distinct
  refine ⟨fun i u hu => ?_, (List.nodup_cons.1 hdistinct).2⟩
  rw [hd.place_eq]
  exact h.placed i u (hd.mem_bucket hu)

theorem of_evictor (h : s.Indexed) (e : Option ε) : { s with evictor := e }.Indexed :=
  ⟨h.placed, h.distinct⟩

theorem new (maxmem : UInt32) (f : FloatVal) (e : Option ε) (hash : Option (KeyType → UInt64)) :
    (new maxmem f e hash).Indexed := by
  constructor
  · intro i t ht
    have hmem := mem_triples.2 ⟨i, ht⟩
    simp [new_triples] at hmem
  · simp [new_triples]

end Indexed

/-! ### The calls -/

section Evictor

variable [Evictor ε] {maxmem : UInt32} {maxLoadFactor : FloatVal} {evictor : Option ε}
  {hasher : Option (KeyType → UInt64)} {H : List (Op × Result)}

theorem Call.indexed {o : Op} {r : Result} (h : s.Call o r s') (hs : s.Indexed)
    (ho : o ≠ .reset) (hkeep : s.EachActivation (fun a _ _ => a.KeepsPlaces) o) :
    s'.Indexed := by
  refine h.induction (P := Indexed) hs (eachDeletion_true s o) ?_ ?_ ?_ ?_ ?_
  · exact fun _ x _ ha => ha.of_evictor x
  · rintro key val size a g rfl ha hai hg
    exact hai.grow hg (hkeep a ha)
  · exact fun _ _ _ _ _ _ _ _ hg hpos _ hl => hg.push hpos hl
  · exact fun _ _ _ _ hg _ hd => hg.deletes hd
  · exact fun h => absurd h ho

/-- **The table is indexed.**  In a run without resets in which every growth keeps the places,
every triple lies in the bucket of its key, and no two have the same key; and the next growth
keeps it so exactly if it keeps the places. -/
theorem indexed_of_reaches
    (h : (library ε).Reaches
      (fun s o => o ≠ .reset ∧ s.EachActivation (fun a _ _ => a.KeepsPlaces) o)
      (new maxmem maxLoadFactor evictor hasher) H s) :
    (∀ i, ∀ t ∈ s.bucket i, i = (s.hasher t.key).toNat % s.dict.length) ∧
      (s.triples.map Triple.key).Nodup ∧ ∀ g, s.grow = .ok g → (g.Placed ↔ s.KeepsPlaces) := by
  have hs : s.Indexed := h.state_invariant (.new _ _ _ _)
    fun _ _ _ _ hs ho hst => (step_cases hst).indexed hs ho.1 ho.2
  exact ⟨hs.placed, hs.distinct, fun g hg => placed_grow_iff hs.placed hg⟩

/-- The table grows twice, and all remainders stay the same. -/
theorem indexed_grown : ∃ H s, (library LRU).exec (small 1000 (some LRU.new))
    [.set [1] (text "a") 2, .set [8] (text "b") 2, .set [9] (text "c") 2, .set [1] (text "d") 2,
      .set [16] (text "e") 2, .set [17] (text "f") 2] = some (H, s) ∧
    s.dict.length = 8 ∧ (s.triples.map Triple.key).Nodup :=
  Machine.exists_exec ⟨_, _, rfl, by decide⟩ (by decide) fun _ s h
    (hD : s.dict.length = 8) => ⟨hD, (indexed_of_reaches h).2.1⟩

/-- The table grows, the triple of the key 2 is put into bucket 0, and a second one for the same
key into bucket 2. -/
theorem not_indexed : ∃ H s, (library LRU).exec (small 1000 none)
    [.set [2] (text "a") 2, .set [1] (text "b") 2, .set [3] (text "c") 2,
      .set [2] (text "d") 2] = some (H, s) ∧
    ¬ (∀ i, ∀ t ∈ s.bucket i, i = (s.hasher t.key).toNat % s.dict.length) ∧
    ¬ (s.triples.map Triple.key).Nodup :=
  ⟨_, _, rfl, fun h => absurd (h 0 ⟨[2], 2, text "a"⟩ (by decide)) (by decide), by decide⟩

end Evictor

end Impl

end CrankItUp
