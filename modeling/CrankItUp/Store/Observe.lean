import CrankItUp.Store.Refine

/-!
# What a client can tell

Two consequences of the refinement (`Impl.results_eq_store`), for clients whose calls are
regular.

* `Impl.results_eq_of_new` : the hash function and the load factor cannot be observed.
* `Impl.results_reset` : a cache that has been reset cannot be told from a new one, if the
  evictor has forgotten its keys or is not asked for any.
-/

namespace CrankItUp

namespace Store

/-! ### Stores with different evictors -/

/-- The stores differ at most in what their evictors know. -/
structure Alike {ε : Type} (st st' : Store ε) : Prop where
  maxmem : st.maxmem = st'.maxmem
  entries : st.entries = st'.entries
  used : st.used = st'.used

variable {ε : Type} {st st' : Store ε} {key : KeyType} {val : ValType} {size n : UInt32} {x : Entry}

theorem Alike.find (h : st.Alike st') (k : KeyType) : st.find k = st'.find k := by
  rw [Store.find, Store.find, h.entries]

theorem Alike.insert (h : st.Alike st') : (st.insert key x).Alike (st'.insert key x) :=
  ⟨h.maxmem, congrArg (·.insert key x) h.entries, congrArg (· + x.size) h.used⟩

theorem Alike.remove (h : st.Alike st') : (st.remove key x).Alike (st'.remove key x) :=
  ⟨h.maxmem, congrArg (·.erase key) h.entries, congrArg (· - x.size) h.used⟩

theorem Alike.del (h : st.Alike st') :
    (st.del key).1 = (st'.del key).1 ∧ (st.del key).2.Alike (st'.del key).2 := by
  rw [Store.del, Store.del, ← h.find]
  cases st.find key with
  | none => exact ⟨rfl, h⟩
  | some x => exact ⟨rfl, h.remove⟩

section Evictor

variable [Evictor ε]

theorem Alike.touchKey (h : st.Alike st') : (st.touchKey key).Alike (st'.touchKey key) :=
  ⟨h.maxmem, h.entries, h.used⟩

theorem Alike.get (h : st.Alike st') (key : KeyType) (n : UInt32) :
    (∃ f, st.get key n = .error f ∧ st'.get key n = .error f) ∨
      ∃ v n' a a', st.get key n = .ok (v, n', a) ∧ st'.get key n = .ok (v, n', a') ∧
        a.Alike a' := by
  rw [Store.get, Store.get, ← h.find]
  cases st.find key with
  | none => exact .inr ⟨_, _, _, _, rfl, rfl, h⟩
  | some x =>
    cases hx : x.val with
    | none => exact .inl ⟨.nullStrlen, by simp only [hx], by simp only [hx]⟩
    | some w =>
      refine .inr ⟨some w, UInt32.ofNat (w.strlen + 1), st.touchKey key, st'.touchKey key, ?_, ?_,
        h.touchKey⟩ <;> simp only [hx]

/-- An activation that does not need to evict does not ask the evictor. -/
theorem Alike.setBody (h : st.Alike st') (hfit : st.Fits size) :
    Agree Alike (st.setBody key val size) (st'.setBody key val size) := by
  have hfit' : st'.Fits size := by rwa [Fits, ← h.maxmem, ← h.used]
  have hfind := h.find key
  cases hf : st.find key with
  | none =>
    rw [setBody_of_fits hfit hf, setBody_of_fits hfit' (hfind ▸ hf)]
    exact ⟨rfl, h.insert.touchKey⟩
  | some x =>
    cases hx : x.val with
    | none =>
      rw [setBody_of_null hfit hf hx, setBody_of_null hfit' (hfind ▸ hf) hx]
      exact rfl
    | some w =>
      rw [setBody_of_present hfit hf hx, setBody_of_present hfit' (hfind ▸ hf) hx]
      exact ⟨rfl, h.remove.touchKey⟩

theorem Alike.step (h : st.Alike st') {o : Op}
    (hfit : st.EachActivation (fun a _ size => a.Fits size) o) :
    Agree Alike (st.step o) (st'.step o) := by
  cases o with
  | set key val size =>
    have hset : Agree Alike (st.set key val size) (st'.set key val size) := by
      rw [Store.set, Store.set, ← h.entries]
      exact Loop.agree_run rfl _ h fun a b ha _ hab => hab.setBody (hfit a ha)
    simp only [Store.step]
    obtain ⟨f, hs, hs'⟩ | ⟨es, a, a', hs, hs', ha⟩ := agree_iff.1 hset
    · rw [hs, hs']
      exact rfl
    · rw [hs, hs']
      exact ⟨rfl, ha⟩
  | get key n =>
    simp only [Store.step]
    obtain ⟨f, hg, hg'⟩ | ⟨v, n', a, a', hg, hg', ha⟩ := h.get key n <;>
      rw [hg, hg']
    exacts [rfl, ⟨rfl, ha⟩]
  | del key => exact ⟨congrArg Result.del h.del.1, h.del.2⟩
  | spaceUsed => exact ⟨congrArg Result.spaceUsed h.used, h⟩
  | reset => exact ⟨rfl, h.maxmem, rfl, rfl⟩

end Evictor

end Store

namespace Impl

variable {ε : Type} {s s' : Impl ε}

theorem Genuine.clean (h : s.Genuine) (key : KeyType) : s.Clean key :=
  fun hl => h _ (lookup_mem_triples hl) rfl

section Evictor

variable [Evictor ε]

/-- A call that neither stores nor, by a reset, leaves a placeholder. -/
structure Plain (s : Impl ε) (o : Op) : Prop where
  keeps : s.EachActivation (fun a _ _ => a.KeepsAll) o
  frees : s.EachDeletion FreesExactly o
  genuine : o.Genuine
  no_reset : o ≠ .reset

instance (s : Impl ε) (o : Op) : Decidable (s.Plain o) :=
  decidable_of_iff (s.EachActivation (fun a _ _ => a.KeepsAll) o ∧
      s.EachDeletion FreesExactly o ∧ o.Genuine ∧ o ≠ .reset)
    ⟨fun ⟨hk, hf, hg, hr⟩ => ⟨hk, hf, hg, hr⟩, fun ⟨hk, hf, hg, hr⟩ => ⟨hk, hf, hg, hr⟩⟩

theorem Call.genuine {o : Op} {r : Result} (h : s.Call o r s') (hs : s.Genuine)
    (ho : s.Plain o) : s'.Genuine := by
  refine h.induction (P := Genuine) hs (eachDeletion_true s o) ?_ ?_ ?_ ?_ ?_
  · exact fun _ _ _ ha => ha
  · exact fun _ _ _ _ _ _ _ ha hg => ha.grow hg
  · rintro key val size a g rfl _ _ hgen hpos _ _
    exact hgen.push hpos ho.genuine
  · exact fun _ _ _ _ hgen _ hd => hgen.deletes hd
  · exact fun h => absurd h ho.no_reset

theorem Plain.regular {o : Op} (h : s.Plain o) (hs : s.Genuine) : s.Regular o := by
  refine ⟨h.keeps, ?_, h.frees, h.genuine⟩
  cases o with
  | set key val size =>
    -- an activation searches after its growth check, which leaves no placeholders either
    intro a ha g hg k _
    have hgen : a.Genuine := ha.invariant hs fun a e a' _ hgen hb _ =>
      (setBody_cases hb).genuine hgen h.genuine
    exact (hgen.grow hg).clean k
  | get key n => exact hs.clean key
  | del key => exact hs.clean key
  | spaceUsed => trivial
  | reset => exact absurd rfl h.no_reset

variable {maxmem : UInt32} {maxLoadFactor maxLoadFactor' : FloatVal} {evictor : Option ε}
  {hasher hasher' : Option (KeyType → UInt64)} {os : List Op} {H : List (Op × Result)}

theorem guarded_regular (hs : s.Genuine) (h : (library ε).Guarded Plain s os) :
    (library ε).Guarded Regular s os := by
  refine Machine.Guarded.of_agree (Q := fun s t => s = t ∧ s.Genuine) ?_ os s s ⟨rfl, hs⟩ h
  rintro s _ o ⟨rfl, hgen⟩ ho
  refine ⟨ho.regular hgen, ?_⟩
  cases hst : (library ε).step s o with
  | error f => exact rfl
  | ok p => exact ⟨rfl, rfl, (step_cases hst).genuine hgen ho⟩

/-- **Hash function and load factor are unobservable** to clients whose calls are plain for
both caches. -/
theorem results_eq_of_new
    (h : (library ε).Guarded Plain (new maxmem maxLoadFactor evictor hasher) os)
    (h' : (library ε).Guarded Plain (new maxmem maxLoadFactor' evictor hasher') os) :
    (library ε).results (new maxmem maxLoadFactor evictor hasher) os =
      (library ε).results (new maxmem maxLoadFactor' evictor hasher') os := by
  obtain ⟨ht, hv⟩ := Tidy.new maxmem maxLoadFactor evictor hasher
  obtain ⟨ht', hv'⟩ := Tidy.new maxmem maxLoadFactor' evictor hasher'
  rw [results_eq_store ht (guarded_regular (new_genuine _ _ _ _) h),
    results_eq_store ht' (guarded_regular (new_genuine _ _ _ _) h'), hv, hv']

/-- One of the caches grows, the other one keeps all triples in one bucket. -/
theorem results_eq_of_new_constant :
    (library LRU).results (small 6 (some LRU.new))
      [.set [1] (text "a") 2, .set [4] (text "b") 2, .get [1] 0, .set [8] (text "c") 2,
        .set [5] (text "d") 2, .get [1] 0, .get [4] 0, .del [8], .spaceUsed] =
    (library LRU).results (new 6 (.finite 4 0) (some LRU.new) (some fun _ => 0))
      [.set [1] (text "a") 2, .set [4] (text "b") 2, .get [1] 0, .set [8] (text "c") 2,
        .set [5] (text "d") 2, .get [1] 0, .get [4] 0, .del [8], .spaceUsed] :=
  results_eq_of_new (by decide) (by decide)

/-- A growth of the table hides the key 2 from `get` with one hash function, and not with the
other. -/
theorem results_ne_of_new :
    (library LRU).results (small 1000 (some LRU.new))
      [.set [2] (text "a") 2, .set [1] (text "b") 2, .set [3] (text "c") 2, .get [2] 0] ≠
    (library LRU).results (new 1000 (.finite 3 2) (some LRU.new) (some fun _ => 0))
      [.set [2] (text "a") 2, .set [1] (text "b") 2, .set [3] (text "c") 2, .get [2] 0] := by
  decide

/-! ### After a reset -/

theorem Call.length_pos {o : Op} {r : Result} (h : s.Call o r s') (hpos : 0 < s.dict.length)
    (hover : s.EachActivation (fun a _ _ => a.NoOverflow) o) : 0 < s'.dict.length := by
  refine h.induction (P := fun a => 0 < a.dict.length) hpos (eachDeletion_true s o) ?_ ?_ ?_ ?_ ?_
  · exact fun _ _ _ ha => ha
  · rintro key val size a g rfl ha hlen hg
    exact grow_length_pos (hover a ha) hg
  · exact fun _ _ _ _ _ _ _ _ hlen _ _ _ => by simpa [push] using hlen
  · exact fun g _ _ _ hlen _ hd => hd.frame.2.2.2 ▸ hlen
  · exact fun _ => by simpa [Impl.reset] using hpos

theorem eachActivation_view (h : s.Tidy) {o : Op} (hr : s.Regular o)
    (hfit : s.EachActivation (fun a _ size => a.Fits size) o) :
    s.view.EachActivation (fun b _ size => b.Fits size) o := by
  cases o with
  | set key val size =>
    intro b hb
    obtain ⟨a, ha, -, rfl⟩ := entered_view h hr hb
    exact hfit a ha
  | _ => trivial

/-- **A cache that has been reset is as good as new** to clients whose calls are regular, if
its evictor remembers what a new one does, or if it never has to evict. -/
theorem results_reset
    (h : (library ε).Reaches (EachActivation fun a _ _ => a.NoOverflow)
      (new maxmem maxLoadFactor evictor hasher) H s)
    (hr : (library ε).Guarded Regular s.reset os)
    (hnew : (library ε).Guarded Regular (new maxmem maxLoadFactor evictor hasher) os)
    (hev : s.evictor = evictor ∨
      (library ε).Guarded (EachActivation fun a _ size => a.Fits size) s.reset os) :
    (library ε).results s.reset os =
      (library ε).results (new maxmem maxLoadFactor evictor hasher) os := by
  obtain ⟨hpos, hmax⟩ := h.state_invariant
    (I := fun s => 0 < s.dict.length ∧ s.maxmem = maxmem) ⟨by simp [new, defaultCapacity], rfl⟩
    fun s o r s' ⟨hpos, hmax⟩ hover hst =>
      ⟨(step_cases hst).length_pos hpos hover, (step_cases hst).maxmem_eq.trans hmax⟩
  obtain ⟨hnt, hnv⟩ := Tidy.new maxmem maxLoadFactor evictor hasher
  have ht : s.reset.Tidy := ⟨by simpa [Impl.reset] using hpos, fun k => .reset k⟩
  have hv : s.reset.view = { Store.new maxmem evictor with evictor := s.evictor } := by
    refine Store.ext_find hmax (fun k => ?_) rfl rfl
    rw [view_find_eq_none (.reset k) fun t hl => mem_reset_triples (lookup_mem_triples hl)]
    exact (Store.find_new maxmem evictor k).symm
  rw [results_eq_store ht hr, results_eq_store hnt hnew, hnv]
  rcases hev with hev | hfit
  · rw [hv, hev]
    rfl
  · -- the two maps differ in their evictors, which neither of them asks
    have hfits : (store ε).Guarded (Store.EachActivation fun b _ size => b.Fits size)
        s.reset.view os := by
      refine Machine.Guarded.of_agree (Q := Shown) ?_ os _ _ ⟨ht, rfl⟩ (hr.and hfit)
      rintro a _ o ⟨ha, rfl⟩ ⟨hreg, hf⟩
      exact ⟨eachActivation_view ha hreg hf, step_agree ha hreg⟩
    refine Machine.results_eq_of_agree (Q := Store.Alike) ?_ os _ _ ?_ hfits
      (Machine.guarded_true _ _)
    · exact fun b b' o hb hf _ => hb.step hf
    · rw [hv]
      exact ⟨rfl, rfl, rfl⟩

/-- The evictor still knows the keys 1 and 2, but there is room for the keys 3 and 4. -/
theorem results_reset_room : ∃ H s, (library LRU).exec (small 4 (some LRU.new))
    [.set [1] (text "a") 2, .set [2] (text "b") 2] = some (H, s) ∧
    (library LRU).results s.reset
      [.set [3] (text "c") 2, .get [1] 0, .set [4] (text "d") 2, .get [3] 0, .spaceUsed] =
    (library LRU).results (small 4 (some LRU.new))
      [.set [3] (text "c") 2, .get [1] 0, .set [4] (text "d") 2, .get [3] 0, .spaceUsed] :=
  Machine.exists_exec ⟨_, _, rfl, by decide⟩ (by decide) fun _ s h
    (hg : (library LRU).Guarded Regular s.reset
        [.set [3] (text "c") 2, .get [1] 0, .set [4] (text "d") 2, .get [3] 0, .spaceUsed] ∧
      (library LRU).Guarded (EachActivation fun a _ size => a.Fits size) s.reset
        [.set [3] (text "c") 2, .get [1] 0, .set [4] (text "d") 2, .get [3] 0, .spaceUsed]) =>
    results_reset h hg.1 (by decide) (.inr hg.2)

/-- After a reset the empty key is there to be deleted. -/
theorem results_reset_ne :
    (library LRU).results (small 1000 (some LRU.new)).reset [.del []] ≠
      (library LRU).results (small 1000 (some LRU.new)) [.del []] := by
  decide

end Evictor

end Impl

end CrankItUp
