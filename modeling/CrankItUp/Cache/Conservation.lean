import CrankItUp.Cache.Guard
import CrankItUp.Evictor.Lru

/-!
# Every call of `set` ends, and conserves the triples

Two results about `set` in arbitrary tables: the triples may lie in any bucket, and there may be
several with the same key; the counters may hold any numbers, and the evictor may answer
anything.

* `Impl.NonNull s` : no value in the table is a null pointer, so that no search dies.
* `Impl.set_isOk_of_valued` : it is enough that no search for the key that is set dies.
* `Impl.set_terminates` : the recursion of `set` ends, with at most one activation more than
  there are triples.
* `Impl.set_conserves` : `set` removes one triple for each deletion that it makes, adds its own
  triple if it comes to store it, and changes no other; a value that has been stored is found.
-/

namespace CrankItUp

/-- The key of the triple that an activation of `set key _ _` deletes. -/
def Exit.deleted (key : KeyType) : Exit → Option KeyType
  | .overwrites => some key
  | .evicts k => some k
  | _ => none

namespace Impl

variable {ε : Type}

/-- No value in the table is a null pointer. -/
def NonNull (s : Impl ε) : Prop := ∀ t ∈ s.triples, t.val ≠ none

instance (s : Impl ε) : Decidable s.NonNull :=
  inferInstanceAs (Decidable (∀ t ∈ s.triples, t.val ≠ none))

/-- No value in the table for the key is a null pointer. -/
def Valued (s : Impl ε) (key : KeyType) : Prop := ∀ t ∈ s.triples, t.key = key → t.val ≠ none

theorem NonNull.valued {s : Impl ε} (h : s.NonNull) (key : KeyType) : s.Valued key :=
  fun t ht _ => h t ht

variable [Evictor ε] {s s' : Impl ε} {key : KeyType} {val : ValType} {size : UInt32} {e : Exit}
  {es : List Exit}

/-! ### What an activation takes away -/

/-- One activation removes the triple that it deletes, and adds the one that it stores. -/
theorem Activation.conserves (h : s.Activation key val size e s') :
    ∃ ts : List Triple, ts.map Triple.key = (e.deleted key).toList ∧
      (ts ++ s'.triples).Perm ((if e = .stored then [⟨key, size, val⟩] else []) ++ s.triples) := by
  cases h with
  | stored hg hpos _ _ =>
    refine ⟨[], rfl, ?_⟩
    exact (push_triples_perm hpos).trans ((grow_frame hg).2.cons _)
  | @overwrites g g' t w hg _ _ hd =>
    refine ⟨[t], by simp [lookup_key hd.lookup_eq, Exit.deleted], ?_⟩
    exact hd.triples_perm.symm.trans (grow_frame hg).2
  | @evicts g g' e t hg _ _ hd =>
    refine ⟨[t], by simp [lookup_key hd.lookup_eq, Exit.deleted], ?_⟩
    exact hd.triples_perm.symm.trans (grow_frame hg).2
  | misses hg => exact ⟨[], rfl, (grow_frame hg).2⟩
  | refused hg => exact ⟨[], rfl, (grow_frame hg).2⟩

theorem Activation.subset (h : s.Activation key val size e s') (he : e ≠ .stored) :
    ∀ t ∈ s'.triples, t ∈ s.triples := by
  obtain ⟨ts, -, hperm⟩ := h.conserves
  rw [if_neg he, List.nil_append] at hperm
  exact fun t ht => hperm.mem_iff.1 (List.mem_append_right _ ht)

theorem Activation.length_pos (h : s.Activation key val size e s') (hover : s.NoOverflow) :
    0 < s'.dict.length := by
  refine h.induction (P := fun a => 0 < a.dict.length) (fun _ _ _ ha => ha) ?_ ?_ ?_
  · exact fun g hg => grow_length_pos hover hg
  · exact fun g _ hpos _ _ _ => by simpa [push] using hpos
  · exact fun g _ _ _ _ hpos _ hd => hd.frame.2.2.2 ▸ hpos

theorem conserves_of_ends (h : (setLoop key val size).Ends s es s') :
    ∃ ts : List Triple, ts.map Triple.key = es.filterMap (Exit.deleted key) ∧
      (ts ++ s'.triples).Perm
        ((if Exit.stored ∈ es then [⟨key, size, val⟩] else []) ++ s.triples) := by
  induction h with
  | @last s s' e hb _ =>
    obtain ⟨ts, hkeys, hperm⟩ := (setBody_cases hb).conserves
    refine ⟨ts, ?_, by simpa [eq_comm] using hperm⟩
    rw [hkeys]
    cases he : e.deleted key <;> simp [he]
  | @more s s₁ s' e es hb hag _ ih =>
    obtain ⟨ts, hkeys, hperm⟩ := (setBody_cases hb).conserves
    obtain ⟨ts', hkeys', hperm'⟩ := ih
    -- a recursive call is made where nothing has been stored yet
    have he : e ≠ .stored := by
      rintro rfl
      cases hag
    rw [if_neg he, List.nil_append] at hperm
    refine ⟨ts ++ ts', ?_, ?_⟩
    · rw [List.map_append, hkeys, hkeys']
      cases hd : e.deleted key <;> simp [hd]
    · simp only [List.mem_cons, he.symm, false_or]
      rw [List.append_assoc]
      refine (hperm'.append_left ts).trans ?_
      exact (List.perm_append_comm_assoc _ _ _).trans (hperm.append_left _)

/-! ### The recursion ends -/

theorem valued_of_entered {a : Impl ε} (hpos : 0 < s.dict.length) (hval : s.Valued key)
    (hover : s.EachActivation (fun a _ _ => a.NoOverflow) (.set key val size))
    (ha : (setLoop key val size).Entered s a) : 0 < a.dict.length ∧ a.Valued key := by
  refine ha.invariant (P := fun a => 0 < a.dict.length ∧ a.Valued key) ⟨hpos, hval⟩ ?_
  intro a e a' ha hpa hb hag
  have hact := setBody_cases hb
  refine ⟨hact.length_pos (hover a ha), fun t ht => hpa.2 t (hact.subset ?_ t ht)⟩
  rintro rfl
  cases hag

theorem set_isOk_of_valued (hpos : 0 < s.dict.length) (hval : s.Valued key)
    (hover : s.EachActivation (fun a _ _ => a.NoOverflow) (.set key val size)) :
    ∃ es s', s.set key val size = .ok (es, s') := by
  obtain ⟨⟨es, s'⟩, h⟩ : ∃ p, s.set key val size = .ok p := by
    refine set_isOk fun a ha => ?_
    obtain ⟨hpa, hva⟩ := valued_of_entered hpos hval hover ha
    obtain ⟨g, hg⟩ := grow_isOk hpa (hover a ha)
    refine setBody_isOk hg (grow_length_pos (hover a ha) hg) fun _ t hl => ?_
    exact hva t ((mem_grow_triples hg).1 (lookup_mem_triples hl)) (lookup_key hl)
  exact ⟨es, s', h⟩

/-- **`set` terminates.**  In any table with buckets and without null pointers, with any
evictor, the recursion of `set` ends, and it nests at most one activation more than there are
triples. -/
theorem set_terminates (hpos : 0 < s.dict.length) (hnull : s.NonNull)
    (hover : s.EachActivation (fun a _ _ => a.NoOverflow) (.set key val size)) :
    ∃ es s', (setLoop key val size).Ends s es s' ∧ es.length ≤ s.triples.length + 1 ∧
      s.set key val size = .ok (es, s') := by
  obtain ⟨es, s', h⟩ := set_isOk_of_valued hpos (hnull.valued key) hover
  have hends := set_ends h
  refine ⟨es, s', hends, ?_, h⟩
  exact hends.length_le (μ := fun a => a.triples.length) fun _ _ => triples_length_of_calls

/-- A table with two triples for the key 1, and one for the key 2 in the wrong bucket. -/
def tangled : Impl LRU :=
  { small 100 (some LRU.new) with
    dict := [[], [⟨[1], 3, text "a"⟩, ⟨[2], 9, text "b"⟩, ⟨[1], 3, text "c"⟩]]
    spaceUsed := 90 }

/-- Both triples for the key 1 are deleted before the new one is stored. -/
theorem set_terminates_tangled : ∃ es s',
    (setLoop [1] (text "d") 10).Ends tangled es s' ∧ es.length ≤ 4 ∧
      tangled.set [1] (text "d") 10 = .ok (es, s') :=
  set_terminates (by decide) (by decide) (by decide)

/-! ### The triples are conserved -/

theorem exists_evict_of_mem {k : KeyType} (h : (setLoop key val size).Ends s es s')
    (hk : Exit.evicts k ∈ es) : ∃ a e, (setLoop key val size).Entered s a ∧
      a.evictor = some e ∧ k = (Evictor.evict e).1 := by
  obtain ⟨a, a', ha, hb, -⟩ := h.of_mem hk
  cases setBody_cases hb with
  | evicts hg _ he _ => exact ⟨a, _, ha, (grow_evictor hg).symm.trans he, rfl⟩

/-- **`set` conserves the triples.**  In any table with buckets and without null pointers, with
any evictor, the triples after a call of `set` are those before, less one triple for each
deletion that it makes, with the key that is deleted, and one more if it comes to store its own;
growth changes none of them, and a value that has been stored is found. -/
theorem set_conserves (hpos : 0 < s.dict.length) (hnull : s.NonNull)
    (hover : s.EachActivation (fun a _ _ => a.NoOverflow) (.set key val size)) :
    ∃ es s', (setLoop key val size).Ends s es s' ∧ s.set key val size = .ok (es, s') ∧
      (∃ ts : List Triple, ts.map Triple.key = es.filterMap (Exit.deleted key) ∧
        (ts ++ s'.triples).Perm
          ((if Exit.stored ∈ es then [⟨key, size, val⟩] else []) ++ s.triples)) ∧
      (∀ k, Exit.evicts k ∈ es → ∃ a e, (setLoop key val size).Entered s a ∧
        a.evictor = some e ∧ k = (Evictor.evict e).1) ∧
      (∀ a g, (setLoop key val size).Entered s a → a.grow = .ok g →
        g.triples.Perm a.triples) ∧
      (Exit.stored ∈ es → ∀ v, val = some v → ∀ n, ∃ n' s'',
        s'.get key n = .ok (some v, n', s'')) := by
  obtain ⟨es, s', h⟩ := set_isOk_of_valued hpos (hnull.valued key) hover
  have hends := set_ends h
  refine ⟨es, s', hends, h, conserves_of_ends hends, fun k hk => exists_evict_of_mem hends hk,
    fun a g _ hg => (grow_frame hg).2, ?_⟩
  rintro hes v rfl n
  exact get_of_stored h hes n

/-- The two triples for the key 1 are replaced by one, which is found. -/
theorem set_conserves_tangled : ∃ es s', (setLoop [1] (text "d") 10).Ends tangled es s' ∧
    tangled.set [1] (text "d") 10 = .ok (es, s') ∧ es = [.overwrites, .overwrites, .stored] ∧
    (∃ ts : List Triple, ts.map Triple.key = [[1], [1]] ∧
      (ts ++ s'.triples).Perm (⟨[1], 10, text "d"⟩ :: tangled.triples)) ∧
    s'.triples.filter (·.key = [1]) = [⟨[1], 10, text "d"⟩] ∧
    ∀ n, ∃ n' s'', s'.get [1] n = .ok (text "d", n', s'') := by
  have hover : tangled.EachActivation (fun a _ _ => a.NoOverflow) (.set [1] (text "d") 10) := by
    decide
  obtain ⟨es, s', hends, hset, ⟨ts, hkeys, hperm⟩, -, -, hget⟩ :=
    set_conserves (by decide) (by decide) hover
  have hrun : (tangled.set [1] (text "d") 10).map
      (fun p => (p.1, p.2.triples.filter (·.key = [1]))) =
        .ok ([.overwrites, .overwrites, .stored], [⟨[1], 10, text "d"⟩]) := by
    decide
  rw [hset] at hrun
  obtain ⟨rfl, hone⟩ := Prod.mk.inj (Except.ok.inj hrun)
  exact ⟨_, s', hends, hset, rfl, ⟨ts, hkeys, hperm⟩, hone, hget (by decide) _ rfl⟩

end Impl

end CrankItUp
