import CrankItUp.Cache.Placement
import CrankItUp.Evictor.Lru

/-!
# What a search finds, and the history of the run

* `Impl.get_eq_of_stored` : without an evictor, a value that has been stored is found as long as
  its key is neither set nor deleted and the cache not reset.
* `Impl.get_eq_lastStored` : with any evictor, a value that is found is the one stored last, and
  its key has not been deleted nor the cache reset since.

Both need that the table does not grow at a moment when this takes the triple of the key out of
sight (`Impl.KeepsFound`), and both fail without.
-/

namespace CrankItUp

/-- The call neither sets nor deletes the key, nor resets the cache. -/
def Op.Spares (k : KeyType) : Op → Prop
  | .set key _ _ => key ≠ k
  | .del key => key ≠ k
  | .reset => False
  | _ => True

instance (k : KeyType) : ∀ o : Op, Decidable (o.Spares k)
  | .set key _ _ => inferInstanceAs (Decidable (key ≠ k))
  | .del key => inferInstanceAs (Decidable (key ≠ k))
  | .reset => isFalse id
  | .get _ _ | .spaceUsed => isTrue trivial

/-- The value of the last call of `set` that stored a value under the key, if the key has not
been deleted nor the cache reset since. -/
def lastStored (k : KeyType) : List (Op × Result) → ValType
  | [] => none
  | (.set key val _, .set es) :: H =>
    if key = k ∧ Exit.stored ∈ es then val else lastStored k H
  | (.del key, _) :: H => if key = k then none else lastStored k H
  | (.reset, _) :: _ => none
  | _ :: H => lastStored k H

namespace Impl

variable {ε : Type} [Evictor ε] {s s' : Impl ε} {k : KeyType} {t : Triple}

/-! ### Without an evictor -/

theorem Call.lookup_eq {o : Op} {r : Result} (h : s.Call o r s') (he : s.evictor = none)
    (ho : o.Spares k) (hkeep : s.EachActivation (fun a _ _ => a.KeepsFound k) o)
    (hl : s.lookup k = some t) (ht : t ≠ Triple.default) : s'.lookup k = some t := by
  cases h with
  | @set key val size es s' hset =>
    have hk : k ≠ key := Ne.symm ho
    refine ((set_ends hset).invariant (P := fun a => a.evictor = none ∧ a.lookup k = some t)
      ⟨he, hl⟩ fun a e a' ha _ ⟨hae, hal⟩ hb => ?_).2
    have hgrow : ∀ g, a.grow = .ok g → g.evictor = none ∧ g.lookup k = some t := fun g hg =>
      ⟨(grow_evictor hg).trans hae, (keepsFound_iff hg).1 (hkeep a ha) t hal ht⟩
    cases setBody_cases hb with
    | stored hg _ _ _ =>
      obtain ⟨he, hl⟩ := hgrow _ hg
      exact ⟨by simp [touchKey, Impl.push, he], (push_lookup_ne hk).trans hl⟩
    | overwrites hg _ _ hd =>
      obtain ⟨he, hl⟩ := hgrow _ hg
      exact ⟨by simp [touchKey, hd.frame.2.1, he], (hd.lookup_ne hk).trans hl⟩
    | evicts hg _ hev _ => simp [(hgrow _ hg).1] at hev
    | misses hg _ hev _ => simp [(hgrow _ hg).1] at hev
    | refused hg _ _ => exact hgrow _ hg
  | get hget =>
    obtain ⟨-, ⟨-, -, -, rfl⟩ | ⟨_, _, -, -, -, -, rfl⟩⟩ := get_cases hget
    exacts [hl, hl]
  | del hdel =>
    obtain ⟨-, ⟨-, rfl, -⟩ | ⟨-, _, hd⟩⟩ := del_cases hdel
    exacts [hl, (hd.lookup_ne (Ne.symm ho)).trans hl]
  | spaceUsed => exact hl
  | reset => exact ho.elim

variable {maxmem : UInt32} {maxLoadFactor : FloatVal} {evictor : Option ε}
  {hasher : Option (KeyType → UInt64)} {H H' : List (Op × Result)}

theorem evictor_eq_none_of_reaches {ok : Impl ε → Op → Prop}
    (h : (library ε).Reaches ok s H s') (he : s.evictor = none) : s'.evictor = none :=
  h.state_invariant (I := fun s => s.evictor = none) he fun _ _ _ _ ha _ hst =>
    (step_cases hst).evictor_eq_none ha

/-- **No loss without eviction.**  In a cache without an evictor, a value that has been stored
is found as long as the calls spare its key and no growth of the table hides it. -/
theorem get_eq_of_stored {s₁ s₂ : Impl ε} {v : CStr} {size n : UInt32} {es : List Exit}
    (h₁ : (library ε).Reaches (fun _ _ => True) (new maxmem maxLoadFactor none hasher) H s₁)
    (hset : s₁.set k (some v) size = .ok (es, s₂)) (hes : Exit.stored ∈ es)
    (h₂ : (library ε).Reaches
      (fun s o => o.Spares k ∧ s.EachActivation (fun a _ _ => a.KeepsFound k) o) s₂ H' s) :
    ∃ n', s.get k n = .ok (some v, n', s) := by
  have he₁ : s₁.evictor = none := evictor_eq_none_of_reaches h₁ rfl
  have he₂ : s₂.evictor = none := (Call.set hset).evictor_eq_none he₁
  have hl₂ : s₂.lookup k = some ⟨k, size, some v⟩ := by
    obtain ⟨a, g, -, -, hpos, -, hno, rfl⟩ := set_stored hset hes
    exact push_lookup_self hpos hno
  obtain ⟨he, hl⟩ := h₂.state_invariant
    (I := fun s => s.evictor = none ∧ s.lookup k = some ⟨k, size, some v⟩) ⟨he₂, hl₂⟩
    fun s o r s' ⟨he, hl⟩ ⟨ho, hkeep⟩ hst => ⟨(step_cases hst).evictor_eq_none he,
      (step_cases hst).lookup_eq he ho hkeep hl (by simp [Triple.default])⟩
  have htouch : s.touchKey k = s := by
    obtain ⟨_, _, _, _, _, _, _⟩ := s
    simp only at he
    simp [touchKey, he]
  exact ⟨_, htouch ▸ get_of_lookup hl rfl n⟩

/-- The table grows, and the key 1 keeps the remainder 1. -/
theorem get_eq_of_stored_grown : ∃ H s,
    (library LRU).exec ((small 1000 none).push [1] (text "a") 2)
      [.set [4] (text "b") 2, .set [8] (text "c") 2, .del [4]] = some (H, s) ∧
    s.dict.length = 4 ∧ ∃ n', s.get [1] 0 = .ok (text "a", n', s) := by
  have hset : (small 1000 none : Impl LRU).set [1] (text "a") 2 =
      .ok ([.stored], (small 1000 none).push [1] (text "a") 2) := rfl
  exact Machine.exists_exec ⟨_, _, rfl, by decide⟩ (by decide) fun _ _ h hlen =>
    ⟨hlen, get_eq_of_stored .start hset (by decide) h⟩

/-- The table grows, and the key 2 is searched for in bucket 2, but lies in bucket 0. -/
theorem get_none_of_stored : ∃ s, (library LRU).exec (small 1000 none)
    [.set [2] (text "a") 2, .set [1] (text "b") 2, .set [3] (text "c") 2, .get [2] 0] =
    some ([(.get [2] 0, .get none 0), (.set [3] (text "c") 2, .set [.stored]),
      (.set [1] (text "b") 2, .set [.stored]), (.set [2] (text "a") 2, .set [.stored])], s) :=
  ⟨_, rfl⟩

/-! ### With any evictor -/

/-- All triples with the key have the value, placeholders aside. -/
def Shows (s : Impl ε) (k : KeyType) (v : ValType) : Prop :=
  ∀ t ∈ s.triples, t.key = k → t ≠ Triple.default → t.val = v

omit [Evictor ε] in
theorem Shows.of_subset {v : ValType} (h : s.Shows k v)
    (hsub : ∀ t ∈ s'.triples, t ∈ s.triples) : s'.Shows k v :=
  fun t ht => h t (hsub t ht)

/-- An activation that does not store a triple for the key keeps what the table shows for it. -/
theorem Activation.shows {key : KeyType} {val v : ValType} {size : UInt32} {e : Exit}
    (h : s.Activation key val size e s') (he : ¬ (key = k ∧ e = .stored)) (hs : s.Shows k v) :
    s'.Shows k v := by
  have hgrow : ∀ g, s.grow = .ok g → g.Shows k v := fun g hg =>
    hs.of_subset fun t => (mem_grow_triples hg).1
  cases h with
  | stored hg hpos _ _ =>
    intro t ht htk hne
    rcases (mem_push_triples hpos).1 ht with rfl | ht
    · exact absurd ⟨htk, rfl⟩ he
    · exact hgrow _ hg t ht htk hne
  | overwrites hg _ _ hd => exact (hgrow _ hg).of_subset hd.subset
  | evicts hg _ _ hd => exact (hgrow _ hg).of_subset hd.subset
  | misses hg _ _ _ => exact (hgrow _ hg).of_subset fun _ => id
  | refused hg _ _ => exact hgrow _ hg

theorem Call.shows {o : Op} {r : Result} (h : s.Call o r s') (htidy : s.TidyAt k)
    (hkeep : s.EachActivation (fun a _ _ => a.KeepsFound k) o)
    (hs : s.Shows k (lastStored k H)) : s'.Shows k (lastStored k ((o, r) :: H)) := by
  have htidy' := h.tidyAt htidy hkeep
  cases h with
  | @set key val size es s' hset =>
    by_cases hst : key = k ∧ Exit.stored ∈ es
    · obtain ⟨rfl, hes⟩ := hst
      rw [lastStored, if_pos ⟨rfl, hes⟩]
      obtain ⟨a, g, -, -, hpos, -, hno, rfl⟩ := set_stored hset hes
      intro t ht htk hne
      have hl := htidy'.found t ht htk hne
      rw [touchKey_lookup, push_lookup_self hpos hno] at hl
      rw [← Option.some.inj hl]
    · rw [lastStored, if_neg hst]
      refine (set_ends hset).invariant (P := fun a => a.Shows k (lastStored k H)) hs ?_
      intro a e a' _ he ha hb
      exact (setBody_cases hb).shows (fun ⟨hk, hes⟩ => hst ⟨hk, hes ▸ he⟩) ha
  | get hget =>
    obtain ⟨-, ⟨-, -, -, rfl⟩ | ⟨_, _, -, -, -, -, rfl⟩⟩ := get_cases hget
    exacts [hs, hs]
  | @del key b s' hdel =>
    by_cases hk : key = k
    · subst hk
      -- what is left of a deleted key are placeholders
      intro t ht htk hne
      refine absurd ?_ hne
      obtain ⟨-, ⟨-, rfl, hno⟩ | ⟨-, _, hd⟩⟩ := del_cases hdel
      exacts [htidy.eq_default (by simp [hno]) ht htk, htidy.lookup_of_deletes hd ht htk]
    · rw [lastStored, if_neg hk]
      obtain ⟨-, ⟨-, rfl, -⟩ | ⟨-, _, hd⟩⟩ := del_cases hdel
      exacts [hs, hs.of_subset hd.subset]
  | spaceUsed => exact hs
  | reset => exact fun t ht _ hne => absurd (mem_reset_triples ht) hne

/-- **No stale value.**  If no growth of the table hides the triple of the key, then the value
that `get` returns is the one that was stored last, and the key has neither been deleted nor
the cache reset since. -/
theorem get_eq_lastStored {v : CStr} {n n' : UInt32}
    (h : (library ε).Reaches (EachActivation fun a _ _ => a.KeepsFound k)
      (new maxmem maxLoadFactor evictor hasher) H s)
    (hget : s.get k n = .ok (some v, n', s')) : lastStored k H = some v := by
  obtain ⟨htidy, hshows⟩ := h.invariant
    (I := fun H s => s.TidyAt k ∧ s.Shows k (lastStored k H))
    ⟨.new _ _ _ _ _, fun t ht => by simp [new_triples] at ht⟩
    fun H s o r s' ⟨htidy, hs⟩ hkeep hst =>
      ⟨(step_cases hst).tidyAt htidy hkeep, (step_cases hst).shows htidy hkeep hs⟩
  obtain ⟨-, ⟨-, hv, -⟩ | ⟨t, w, hl, hw, hv, -, -⟩⟩ := get_cases hget
  · cases hv
  · rw [← hshows t (lookup_mem_triples hl) (lookup_key hl), hw, hv]
    rintro rfl
    cases hw

/-- The table grows twice while the key 1 is overwritten. -/
theorem get_eq_lastStored_overwritten : ∃ H s, (library LRU).exec (small 1000 (some LRU.new))
    [.set [1] (text "a") 2, .set [4] (text "b") 2, .set [1] (text "c") 2,
      .set [8] (text "d") 2, .set [16] (text "e") 2, .set [24] (text "f") 2] = some (H, s) ∧
    s.dict.length = 8 ∧ lastStored [1] H = text "c" :=
  Machine.exists_exec ⟨_, _, rfl, rfl, _, _, rfl⟩ (by decide) fun _ s h
    (hD : s.dict.length = 8 ∧ ∃ n' s', s.get [1] 0 = .ok (text "c", n', s')) =>
    ⟨hD.1, hD.2.elim fun _ ⟨_, hget⟩ => get_eq_lastStored h hget⟩

/-- The key 2 is hidden by one growth and brought back by the next, after its deletion. -/
theorem get_of_deleted : ∃ s, (library LRU).exec (small 1000 none)
    [.set [2] (text "a") 2, .set [4] (text "b") 2, .set [6] (text "c") 2, .del [2],
      .set [8] (text "d") 2, .set [10] (text "e") 2, .get [2] 0] = some (
    [(.get [2] 0, .get (text "a") 2), (.set [10] (text "e") 2, .set [.stored]),
      (.set [8] (text "d") 2, .set [.stored]), (.del [2], .del false),
      (.set [6] (text "c") 2, .set [.stored]), (.set [4] (text "b") 2, .set [.stored]),
      (.set [2] (text "a") 2, .set [.stored])], s) :=
  ⟨_, rfl⟩

end Impl

end CrankItUp
