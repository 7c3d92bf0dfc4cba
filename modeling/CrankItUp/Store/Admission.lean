import CrankItUp.Store.Refine

/-!
# When `set` gives up

`set` makes room by deleting the keys that the evictor hands out, one after another, and gives
up at the first one that is not stored.

* `Store.Admits st size` : going through the evictor's queue, the size fits before a key comes
  that is not stored.
* `Impl.set_stores_iff` : a regular call of `set` stores its value exactly then.
* `Impl.set_unchanged_iff` : a regular call of `set` that gives up has changed nothing exactly
  if it has given up at the first key.
-/

namespace CrankItUp

namespace Store

variable {ε : Type}

/-- Removing the keys of the queue makes room for the size, before one comes that is not there. -/
def AdmitsVia (size : UInt32) : List KeyType → Store ε → Prop
  | [], st => st.Fits size
  | k :: ks, st => st.Fits size ∨
    match st.find k with
    | some x => AdmitsVia size ks (st.remove k x)
    | none => False

instance AdmitsVia.decidable (size : UInt32) :
    ∀ (ks : List KeyType) (st : Store ε), Decidable (AdmitsVia size ks st)
  | [], st => inferInstanceAs (Decidable (st.Fits size))
  | k :: ks, st =>
    match h : st.find k with
    | some x =>
      have := AdmitsVia.decidable size ks (st.remove k x)
      decidable_of_iff (st.Fits size ∨ AdmitsVia size ks (st.remove k x))
        (by simp only [AdmitsVia, h])
    | none => decidable_of_iff (st.Fits size) (by simp only [AdmitsVia, h, or_false])

/-- The value of the key is not a null pointer. -/
def Valued (st : Store ε) (key : KeyType) : Prop := ∀ x ∈ st.find key, x.val ≠ none

instance (st : Store ε) (key : KeyType) : Decidable (st.Valued key) :=
  inferInstanceAs (Decidable (∀ x ∈ st.find key, x.val ≠ none))

variable {st st' : Store ε} {key k : KeyType} {val : ValType} {size : UInt32} {x : Entry}
  {ks : List KeyType} {es : List Exit} {e : ε}

theorem admitsVia_of_fits (h : st.Fits size) : AdmitsVia size ks st := by
  cases ks with
  | nil => exact h
  | cons k ks => exact .inl h

theorem admitsVia_evictor (e : Option ε) :
    AdmitsVia size ks { st with evictor := e } ↔ AdmitsVia size ks st := by
  induction ks generalizing st with
  | nil => exact Iff.rfl
  | cons k ks ih =>
    have hfind : { st with evictor := e }.find k = st.find k := rfl
    have hfits : { st with evictor := e }.Fits size ↔ st.Fits size := Iff.rfl
    simp only [AdmitsVia, hfind, hfits]
    cases st.find k with
    | none => exact Iff.rfl
    | some x => exact or_congr_right (@ih (st.remove k x))

theorem find_remove_ne_none (h : (st.remove key x).find k ≠ none) :
    k ≠ key ∧ st.find k ≠ none := by
  have hk : k ≠ key := by
    rintro rfl
    exact h find_remove_self
  exact ⟨hk, find_remove_ne hk ▸ h⟩

theorem Valued.remove (h : st.Valued key) : (st.remove k x).Valued key := by
  intro y hy
  have hk := (find_remove_ne_none (ne_of_eq_of_ne hy (by simp))).1
  exact h y ((find_remove_ne hk).symm.trans hy)

variable [EvictionOrder ε]

/-- The keys that the evictor would hand out one after another. -/
def queue (st : Store ε) : List KeyType :=
  match st.evictor with
  | some e => EvictionOrder.order e
  | none => []

/-- A value of the size can be stored, after evictions if need be. -/
def Admits (st : Store ε) (size : UInt32) : Prop := AdmitsVia size st.queue st

instance (st : Store ε) (size : UInt32) : Decidable (st.Admits size) :=
  AdmitsVia.decidable size st.queue st

/-- Every stored key is known to the evictor, if there is one. -/
def Covered (st : Store ε) : Prop :=
  ∀ e ∈ st.evictor, ∀ k, st.find k ≠ none → k ∈ EvictionOrder.order e

theorem queue_of_evictor (h : st.evictor = some e) : st.queue = EvictionOrder.order e := by
  simp only [queue, h]

theorem evictor_of_queue {ks : List KeyType} (h : st.queue = k :: ks) :
    ∃ e, st.evictor = some e ∧ (Evictor.evict e).1 = k ∧
      EvictionOrder.order (Evictor.evict e).2 = ks := by
  cases he : st.evictor with
  | none => simp [queue, he] at h
  | some e =>
    rw [queue_of_evictor he] at h
    exact ⟨e, rfl, EvictionOrder.evict_cons e k ks h⟩

/-! ### The evictor knows what is stored -/

theorem Covered.remove (h : st.Covered) : (st.remove key x).Covered :=
  fun e he k hk => h e he k (find_remove_ne_none hk).2

theorem Covered.touchKey (h : st.Covered) : (st.touchKey key).Covered := by
  intro e' he' k hk
  obtain ⟨e, he, rfl⟩ := Option.map_eq_some_iff.1 he'
  exact (EvictionOrder.mem_touchKey e key k).2 (.inr (h e he k hk))

theorem Covered.insert (h : st.Covered) : ((st.insert key x).touchKey key).Covered := by
  intro e' he' k hk
  obtain ⟨e, he, rfl⟩ := Option.map_eq_some_iff.1 he'
  rw [EvictionOrder.mem_touchKey]
  by_cases hkey : k = key
  · exact .inl hkey
  · refine .inr (h e he k ?_)
    rwa [touchKey_find, find_insert_ne hkey] at hk

theorem Covered.mem_evict (h : st.Covered) (he : st.evictor = some e) (hk : st.find k ≠ none)
    (hne : k ≠ (Evictor.evict e).1) : k ∈ EvictionOrder.order (Evictor.evict e).2 := by
  have hmem := h e he k hk
  cases ho : EvictionOrder.order e with
  | nil => simp [ho] at hmem
  | cons k' ks =>
    obtain ⟨hfst, hsnd⟩ := EvictionOrder.evict_cons e k' ks ho
    rw [hfst] at hne
    rw [hsnd]
    exact (List.mem_cons.1 (ho ▸ hmem)).resolve_left hne

theorem Covered.find_evict (h : st.Covered) (he : st.evictor = some e)
    (hhead : ∀ k ∈ st.queue.head?, st.find k = none) : st.find (Evictor.evict e).1 = none := by
  by_contra hf
  have hmem := h e he _ hf
  rw [← queue_of_evictor he] at hmem
  cases hq : st.queue with
  | nil => simp [hq] at hmem
  | cons k ks =>
    obtain ⟨e', he', hfst, -⟩ := evictor_of_queue hq
    cases he.symm.trans he'
    exact hf (hfst ▸ hhead k (by simp [hq]))

theorem Activation.covered {ex : Exit} (h : st.Activation key val size ex st')
    (hc : st.Covered) : st'.Covered := by
  cases h with
  | stored => exact hc.insert
  | overwrites => exact hc.remove.touchKey
  | @evicts e x _ he _ =>
    rintro _ ⟨⟩ k hk
    obtain ⟨hne, hk⟩ := find_remove_ne_none (x := x) hk
    exact hc.mem_evict he hk hne
  | misses _ he hf =>
    rintro _ ⟨⟩ k hk
    refine hc.mem_evict he hk ?_
    rintro rfl
    exact hk hf
  | refused => exact hc

theorem Activation.valued {ex : Exit} (h : st.Activation key val size ex st')
    (hn : st.Valued key) (hval : val ≠ none) : st'.Valued key := by
  cases h with
  | stored =>
    intro x hx
    rw [touchKey_find, find_insert_self] at hx
    cases hx
    exact hval
  | @overwrites x => exact hn.remove (x := x)
  | @evicts e x => exact hn.remove (x := x)
  | misses => exact hn
  | refused => exact hn

theorem step_covered {o : Op} {r : Result} (h : st.step o = .ok (r, st')) (hc : st.Covered) :
    st'.Covered := by
  cases o with
  | set key val size =>
    cases hs : st.set key val size with
    | error f => simp only [step, hs] at h; cases h
    | ok p =>
      simp only [step, hs] at h
      cases h
      exact (Loop.ends_of_run hs).invariant hc fun _ _ _ _ _ hac hb =>
        (setBody_cases hb).covered hac
  | get key n =>
    simp only [step, get] at h
    cases hf : st.find key with
    | none => rw [hf] at h; cases h; exact hc
    | some x =>
      cases hx : x.val with
      | none => simp only [hf, hx] at h; cases h
      | some w => simp only [hf, hx] at h; cases h; exact hc.touchKey
  | del key =>
    simp only [step, del] at h
    cases hf : st.find key with
    | none => rw [hf] at h; cases h; exact hc
    | some x => rw [hf] at h; cases h; exact hc.remove
  | spaceUsed => cases h; exact hc
  | reset =>
    cases h
    exact fun _ _ k hk => absurd (find_clear k) hk

/-! ### How a call of `set` ends -/

/-- Making room for a key that is present leaves room for its new value. -/
def Shrinks (key : KeyType) (size : UInt32) (st : Store ε) : Prop :=
  st.Fits size → ∀ x, st.find key = some x → (st.remove key x).Fits size

theorem ends_of_fits (val : ValType) (hfit : st.Fits size) (hn : st.Valued key)
    (hshrink : st.Shrinks key size) :
    ∃ es st', (setLoop key val size).Ends st es st' ∧ Exit.stored ∈ es := by
  cases hf : st.find key with
  | none => exact ⟨_, _, .last (setBody_of_fits hfit hf) rfl, by simp⟩
  | some x =>
    obtain ⟨w, hw⟩ := Option.ne_none_iff_exists'.1 (hn x hf)
    -- the old value is removed, and the second activation stores the new one
    have hfit' : ((st.remove key x).touchKey key).Fits size := hshrink hfit x hf
    exact ⟨_, _, .more (setBody_of_present hfit hf hw) rfl
      (.last (setBody_of_fits hfit' (find_remove_self (x := x))) rfl), by simp⟩

/-- If an overwrite leaves room for the new value, `set` ends, and it stores the value exactly if
the queue of the evictor admits it. -/
theorem exists_ends (hc : st.Covered) (hn : st.Valued key)
    (hshrink : ∀ a, (setLoop key val size).Entered st a → a.Shrinks key size) :
    ∃ es st', (setLoop key val size).Ends st es st' ∧ (Exit.stored ∈ es ↔ st.Admits size) := by
  obtain ⟨ks, hks⟩ : ∃ ks, st.queue = ks := ⟨_, rfl⟩
  rw [Admits, hks]
  induction ks generalizing st with
  | nil =>
    by_cases hfit : st.Fits size
    · obtain ⟨es, st', h, hes⟩ := ends_of_fits val hfit hn (hshrink st .refl)
      exact ⟨es, st', h, by simp [hes, AdmitsVia, hfit]⟩
    · cases he : st.evictor with
      | none => exact ⟨_, _, .last (setBody_of_refused hfit he) rfl, by simp [AdmitsVia, hfit]⟩
      | some e =>
        -- the evictor has run out of keys; whatever it answers is not stored
        have hf : st.find (Evictor.evict e).1 = none := hc.find_evict he (by simp [hks])
        exact ⟨_, _, .last (setBody_of_misses hfit he hf) rfl, by simp [AdmitsVia, hfit]⟩
  | cons k ks ih =>
    by_cases hfit : st.Fits size
    · obtain ⟨es, st', h, hes⟩ := ends_of_fits val hfit hn (hshrink st .refl)
      exact ⟨es, st', h, by simp [hes, AdmitsVia, hfit]⟩
    · obtain ⟨e, he, hfst, hsnd⟩ := evictor_of_queue hks
      cases hf : st.find k with
      | none =>
        exact ⟨_, _, .last (setBody_of_misses hfit he (hfst ▸ hf)) rfl,
          by simp [AdmitsVia, hfit, hf]⟩
      | some x =>
        -- the first key of the queue is evicted, and the rest of the queue decides
        have hb : st.setBody key val size = _ := setBody_of_evicts hfit he (hfst.symm ▸ hf)
        rw [hfst] at hb
        have hact := setBody_cases hb
        obtain ⟨es, st', h, hes⟩ := ih (hact.covered hc) (hn.remove (x := x))
          (fun a ha => hshrink a (.head ⟨_, hb, rfl⟩ ha)) hsnd
        refine ⟨_, st', .more hb rfl h, ?_⟩
        simp only [List.mem_cons, reduceCtorEq, false_or, AdmitsVia, hfit, hf]
        rw [hes, admitsVia_evictor]

theorem find_eq_none_of_ends (h : (setLoop key val size).Ends st es st')
    (hes : Exit.stored ∉ es) (hf : st.find k = none) : st'.find k = none := by
  refine h.invariant (P := fun a => a.find k = none) hf fun a e a' _ he ha hb => ?_
  have hremove : ∀ k' x, (a.remove k' x).find k = none := fun k' x => by
    by_contra hne
    exact (find_remove_ne_none hne).2 ha
  cases setBody_cases hb with
  | stored => exact absurd he hes
  | @overwrites x => exact hremove key x
  | @evicts e x => exact hremove (Evictor.evict e).1 x
  | misses => exact ha
  | refused => exact ha

theorem eq_of_ends (h : (setLoop key val size).Ends st es st') (hc : st.Covered)
    (hfit : ¬ st.Fits size) (hhead : ∀ k ∈ st.queue.head?, st.find k = none) :
    (∃ ex, es = [ex] ∧ ex ≠ .stored) ∧ ∃ e, st' = { st with evictor := e } := by
  have hmiss : ∀ e, st.evictor = some e → st.find (Evictor.evict e).1 = none :=
    fun e he => hc.find_evict he hhead
  cases h with
  | last hb _ =>
    cases setBody_cases hb with
    | stored hf => exact absurd hf hfit
    | overwrites hf => exact absurd hf hfit
    | evicts _ he hf => simp [hmiss _ he] at hf
    | misses => exact ⟨⟨_, rfl, by simp⟩, _, rfl⟩
    | refused => exact ⟨⟨_, rfl, by simp⟩, _, rfl⟩
  | more hb hag _ =>
    cases setBody_cases hb with
    | stored => cases hag
    | overwrites hf => exact absurd hf hfit
    | evicts _ he hf => simp [hmiss _ he] at hf
    | misses => cases hag
    | refused => cases hag

theorem find_head_of_ends (h : (setLoop key val size).Ends st es st') (hes : Exit.stored ∉ es)
    (hfit : ¬ st.Fits size) (hk : k ∈ st.queue.head?) (hf : st.find k ≠ none) :
    st'.find k = none := by
  obtain ⟨ks, hq⟩ := List.head?_eq_some_iff.1 hk
  obtain ⟨e, he, hfst, -⟩ := evictor_of_queue hq
  obtain ⟨x, hx⟩ := Option.ne_none_iff_exists'.1 hf
  have hb : st.setBody key val size = _ := setBody_of_evicts hfit he (hfst.symm ▸ hx)
  rw [hfst] at hb
  obtain ⟨es', rfl, hrest⟩ := h.tail hb rfl
  exact find_eq_none_of_ends hrest (fun hmem => hes (List.mem_cons_of_mem _ hmem))
    (find_remove_self (x := x))

/-- The keys that the evictor would hand out before the first one that is not stored. -/
def evictable (st : Store ε) : List KeyType := st.queue.takeWhile fun k => (st.find k).isSome

theorem takeWhile_congr {α : Type*} {p q : α → Bool} {l : List α} (h : ∀ a ∈ l, p a = q a) :
    l.takeWhile p = l.takeWhile q := by
  induction l with
  | nil => rfl
  | cons a l ih =>
    rw [List.takeWhile_cons, List.takeWhile_cons, h a List.mem_cons_self,
      ih fun b hb => h b (List.mem_cons_of_mem _ hb)]

/-- A `set` that gives up has removed the keys that can be evicted, and no others. -/
theorem find_of_ends (h : (setLoop key val size).Ends st es st') (hc : st.Covered)
    (hnodup : st.queue.Nodup) (hno : ¬ st.Admits size) :
    st'.find k = if k ∈ st.evictable then none else st.find k := by
  obtain ⟨ks, hks⟩ : ∃ ks, st.queue = ks := ⟨_, rfl⟩
  rw [Admits, hks] at hno
  rw [hks] at hnodup
  rw [evictable, hks]
  induction ks generalizing st es with
  | nil =>
    obtain ⟨-, e, rfl⟩ := eq_of_ends h hc hno (by simp [hks])
    rfl
  | cons k₀ ks ih =>
    have hfit : ¬ st.Fits size := mt admitsVia_of_fits hno
    cases hf : st.find k₀ with
    | none =>
      obtain ⟨-, e, rfl⟩ := eq_of_ends h hc hfit (by simp [hks, hf])
      simp only [List.takeWhile_cons, hf]
      rfl
    | some x =>
      -- the first key of the queue is removed, and the others are found as before
      obtain ⟨e, he, hfst, hsnd⟩ := evictor_of_queue hks
      have hb : st.setBody key val size = _ := setBody_of_evicts hfit he (hfst.symm ▸ hf)
      rw [hfst] at hb
      obtain ⟨es', -, hrest⟩ := h.tail hb rfl
      obtain ⟨hmem, hnodup'⟩ := List.nodup_cons.1 hnodup
      have hno' : ¬ AdmitsVia size ks (st.remove k₀ x) := fun hadmits =>
        hno (.inr (by rwa [hf]))
      have hih := ih hrest ((setBody_cases hb).covered hc) hnodup'
        (mt (admitsVia_evictor _).1 hno') hsnd
      have hsame : (ks.takeWhile fun k => ((st.remove k₀ x).find k).isSome) =
          ks.takeWhile fun k => (st.find k).isSome := by
        refine takeWhile_congr fun k' hk' => ?_
        have hne : k' ≠ k₀ := fun heq => hmem (heq ▸ hk')
        rw [find_remove_ne hne]
      refine hih.trans ?_
      show (if k ∈ ks.takeWhile fun k => ((st.remove k₀ x).find k).isSome then none
        else (st.remove k₀ x).find k) = _
      rw [hsame, List.takeWhile_cons, hf, Option.isSome_some, if_pos rfl]
      by_cases hk : k = k₀
      · simp [hk]
      · simp [hk, find_remove_ne hk]

end Store

namespace Impl

variable {ε : Type} [EvictionOrder ε] {s s' a : Impl ε} {key k : KeyType} {val : ValType}
  {size : UInt32} {es : List Exit}

/-- A regular call in which no sum that passes the fit test has wrapped. -/
structure Accurate (s : Impl ε) (o : Op) : Prop where
  regular : s.Regular o
  unwrapped : s.EachActivation (fun a _ size => a.FitsUnwrapped size) o

instance (s : Impl ε) (o : Op) : Decidable (s.Accurate o) :=
  decidable_of_iff (s.Regular o ∧ s.EachActivation (fun a _ size => a.FitsUnwrapped size) o)
    ⟨fun ⟨hr, hu⟩ => ⟨hr, hu⟩, fun ⟨hr, hu⟩ => ⟨hr, hu⟩⟩

/-- The cache is tidy, its counter exact, and its keys are known to the evictor. -/
structure Ready (s : Impl ε) : Prop where
  tidy : s.Tidy
  counted : s.Counted
  covered : s.view.Covered

omit [EvictionOrder ε] in
/-- With an exact counter, the size of a stored value becomes free when it is removed. -/
theorem Counted.shrinks (h : s.Counted) (hsum : s.FitsUnwrapped size) :
    s.view.Shrinks key size := by
  intro hfit x hx
  obtain ⟨t, ht, -, rfl⟩ := exists_triple_of_find hx
  have hle : t.size ≤ s.spaceUsed := h.size_le ht
  -- neither the sum of the fit test nor the subtraction wraps
  have hlt : s.spaceUsed.toNat + size.toNat < 2 ^ 32 := hsum hfit
  have hmax : s.spaceUsed + size ≤ s.maxmem := hfit
  have hsub := UInt32.toNat_sub_of_le _ _ hle
  show s.spaceUsed - t.size + size ≤ s.maxmem
  rw [UInt32.le_iff_toNat_le, UInt32.toNat_add] at hmax ⊢
  rw [Nat.mod_eq_of_lt hlt] at hmax
  rw [hsub, Nat.mod_eq_of_lt] <;> omega

theorem Accurate.counted (h : s.Accurate (.set key val size)) (hs : s.Counted)
    (ha : (setLoop key val size).Entered s a) : a.Counted :=
  ha.invariant hs fun a _ _ ha hac hb _ =>
    (setBody_cases hb).counted hac (h.unwrapped a ha) (h.regular.frees a ha)

theorem Ready.call {o : Op} {r : Result} (hs : s.Ready) (ho : s.Accurate o)
    (h : s.step o = .ok (r, s')) : s'.Ready := by
  have hag := step_agree hs.tidy ho.regular
  rw [h] at hag
  cases hv : s.view.step o with
  | error f => rw [hv] at hag; exact hag.elim
  | ok p =>
    rw [hv] at hag
    obtain ⟨-, htidy, hview⟩ := hag
    have hcovered := Store.step_covered hv hs.covered
    rw [← hview] at hcovered
    exact ⟨htidy, (step_cases h).counted hs.counted ho.unwrapped ho.regular.frees, hcovered⟩

/-- An accurate call of `set` returns, and what it does is decided by the view. -/
theorem Ready.set (hs : s.Ready) (hn : s.view.Valued key) (ho : s.Accurate (.set key val size)) :
    ∃ es s', s.set key val size = .ok (es, s') ∧ s'.Tidy ∧
      (Store.setLoop key val size).Ends s.view es s'.view ∧
      (Exit.stored ∈ es ↔ s.view.Admits size) := by
  have hshrink : ∀ b, (Store.setLoop key val size).Entered s.view b → b.Shrinks key size := by
    intro b hb
    obtain ⟨a, ha, -, rfl⟩ := entered_view hs.tidy ho.regular hb
    exact (ho.counted hs.counted ha).shrinks (ho.unwrapped a ha)
  obtain ⟨es, st', hends, hes⟩ := Store.exists_ends hs.covered hn hshrink
  obtain ⟨s', hset, htidy, rfl⟩ := set_of_ends hs.tidy ho.regular hends
  exact ⟨es, s', hset, htidy, hends, hes⟩

variable {maxmem : UInt32} {maxLoadFactor : FloatVal} {evictor : Option ε}
  {hasher : Option (KeyType → UInt64)} {H : List (Op × Result)}

theorem ready_of_reaches
    (h : (library ε).Reaches Accurate (new maxmem maxLoadFactor evictor hasher) H s) :
    s.Ready := by
  refine h.state_invariant (I := Ready) ?_ fun s o r s' hs ho hst => hs.call ho hst
  obtain ⟨htidy, hview⟩ := Tidy.new maxmem maxLoadFactor evictor hasher
  refine ⟨htidy, counted_new _ _ _ _, ?_⟩
  rw [hview]
  exact fun _ _ k hk => absurd (Store.find_new maxmem evictor k) hk

/-- **Admission.**  In every state that accurate calls lead to, `set` of a key whose value is not
null stores its value, so that `get` returns it, exactly if going through the evictor's queue the
size fits before a key comes that is not in the table. -/
theorem set_stores_iff {v : CStr}
    (h : (library ε).Reaches Accurate (new maxmem maxLoadFactor evictor hasher) H s)
    (hn : s.view.Valued k) (ho : s.Accurate (.set k (some v) size)) :
    ∃ es s', s.set k (some v) size = .ok (es, s') ∧
      ((Exit.stored ∈ es ∧ ∀ n, ∃ n' s'', s'.get k n = .ok (some v, n', s'')) ↔
        s.view.Admits size) := by
  obtain ⟨es, s', hset, -, -, hes⟩ := (ready_of_reaches h).set hn ho
  exact ⟨es, s', hset, fun hst => hes.1 hst.1,
    fun had => ⟨hes.2 had, get_of_stored hset (hes.2 had)⟩⟩

/-- Two keys are evicted to make room for the key 5. -/
theorem set_stores_evicting : ∃ H s, (library LRU).exec (small 4 (some LRU.new))
    [.set [1] (text "a") 2, .set [4] (text "b") 2] = some (H, s) ∧
    ∃ es s', s.set [5] (text "c") 4 = .ok (es, s') ∧
      (Exit.stored ∈ es ∧ ∀ n, ∃ n' s'', s'.get [5] n = .ok (text "c", n', s'')) :=
  Machine.exists_exec ⟨_, _, rfl, by decide⟩ (by decide) fun _ s h
    (hs : s.view.Valued [5] ∧ s.Accurate (.set [5] (text "c") 4) ∧ s.view.Admits 4) =>
    have ⟨es, s', hset, hiff⟩ := set_stores_iff h hs.1 hs.2.1
    ⟨es, s', hset, hiff.2 hs.2.2⟩

/-- The evictor hands out the deleted key 1, and `set` gives up. -/
theorem set_misses_deleted : ∃ s, (library LRU).exec (small 2 (some LRU.new))
    [.set [1] (text "a") 1, .del [1], .set [2] (text "b") 2, .set [3] (text "c") 1, .get [3] 0] =
    some ([(.get [3] 0, .get none 0), (.set [3] (text "c") 1, .set [.misses [1]]),
      (.set [2] (text "b") 2, .set [.stored]), (.del [1], .del true),
      (.set [1] (text "a") 1, .set [.stored])], s) :=
  ⟨_, rfl⟩

/-! ### What a refused call changes -/

omit [EvictionOrder ε] in
theorem lookup_of_find {x : Entry} (h : s.Tidy) (hx : s.view.find key = some x) :
    ∃ t, s.lookup key = some t ∧ t.entry = x := by
  obtain ⟨t, ht, hne⟩ : ∃ t ∈ s.lookup key, t ≠ Triple.default := by
    by_contra hno
    rw [view_find_eq_none (h.tidyAt key) (by simpa using hno)] at hx
    cases hx
  rw [view_find_of_lookup (h.tidyAt key) ht hne] at hx
  exact ⟨t, ht, Option.some.inj hx⟩

/-- What `get` returns. -/
def seen (s : Impl ε) (key : KeyType) (n : UInt32) : Except Fault (ValType × UInt32) :=
  (s.get key n).map fun (v, n', _) => (v, n')

theorem seen_eq (h : 0 < s.dict.length) (n : UInt32) : s.seen key n =
    match (s.lookup key).map Triple.val with
    | some (some w) => .ok (some w, UInt32.ofNat (w.strlen + 1))
    | some none => .error .nullStrlen
    | none => .ok (none, n) := by
  rw [seen, get_eq h]
  cases s.lookup key with
  | none => rfl
  | some t => cases hv : t.val <;> simp only [hv, Option.map_some] <;> rfl

/-- If the table grows now, the empty key meets a placeholder afterwards if and only if it does
before. -/
def KeepsPlaceholder (s : Impl ε) : Prop :=
  s.Grows → (s.nextLookup [] = some Triple.default ↔ s.lookup [] = some Triple.default)

instance (s : Impl ε) : Decidable s.KeepsPlaceholder := inferInstanceAs (Decidable (_ → _))

omit [EvictionOrder ε] in
theorem grow_placeholder {g : Impl ε} (hg : s.grow = .ok g) (hk : s.KeepsPlaceholder)
    (key : KeyType) :
    g.lookup key = some Triple.default ↔ s.lookup key = some Triple.default := by
  by_cases hkey : key = []
  · subst hkey
    obtain ⟨-, ⟨-, rfl⟩ | ⟨hgr, hre⟩⟩ := grow_cases hg
    · exact Iff.rfl
    · rw [resize_lookup hre]
      exact hk hgr
  · -- placeholders have the empty key
    exact ⟨fun h => absurd (lookup_key h).symm hkey, fun h => absurd (lookup_key h).symm hkey⟩

/-- A key looks the same in tidy caches with the same entry for it, if it meets a placeholder in
both or in neither. -/
theorem seen_eq_of_find (hs : s.Tidy) (hs' : s'.Tidy) (hfind : s'.view.find key = s.view.find key)
    (hdef : s'.lookup key = some Triple.default ↔ s.lookup key = some Triple.default)
    (n : UInt32) : s'.seen key n = s.seen key n := by
  rw [seen_eq hs.pos, seen_eq hs'.pos]
  have hval : (s'.lookup key).map Triple.val = (s.lookup key).map Triple.val := by
    by_cases hd : s.lookup key = some Triple.default
    · rw [hd, hdef.2 hd]
    · have h := view_find (hs.tidyAt key) hd
      have h' := view_find (hs'.tidyAt key) (mt hdef.1 hd)
      rw [hfind, h] at h'
      have hentry := congrArg (Option.map Entry.val) h'
      rw [Option.map_map, Option.map_map] at hentry
      exact hentry.symm
  rw [hval]

theorem find_ne_none_of_seen (hs : s.Tidy) (htidy : s'.Tidy) (hempty : s.view.Valued [])
    (hseen : ∀ n, s'.seen k n = s.seen k n) (hf : s.view.find k ≠ none) :
    s'.view.find k ≠ none := by
  obtain ⟨x, hx⟩ := Option.ne_none_iff_exists'.1 hf
  obtain ⟨t, hl, rfl⟩ := lookup_of_find hs hx
  have hold := hseen 0
  rw [seen_eq hs.pos, hl, seen_eq htidy.pos] at hold
  cases hl' : s'.lookup k with
  | none => cases hv : t.val <;> simp [hl', hv] at hold
  | some t' =>
    -- a placeholder has the empty key, and would end `get` in a fault
    have ht' : t' ≠ Triple.default := by
      rintro rfl
      obtain rfl : [] = k := lookup_key hl'
      obtain ⟨w, hw⟩ := Option.ne_none_iff_exists'.1 (hempty t.entry hx)
      simp [hl', Triple.default, show t.val = some w from hw] at hold
    rw [view_find_of_lookup (htidy.tidyAt k) hl' ht']
    exact Option.some_ne_none _

omit [EvictionOrder ε] in
theorem exists_grow_of_ends [Evictor ε] {e : Exit} (h : (setLoop key val size).Ends s [e] s')
    (he : e ≠ .stored) : ∃ g, s.grow = .ok g ∧ ∀ k, s'.lookup k = g.lookup k := by
  cases h with
  | last hb hag =>
    cases setBody_cases hb with
    | stored => exact absurd rfl he
    | overwrites => cases hag
    | evicts => cases hag
    | misses hg => exact ⟨_, hg, fun _ => rfl⟩
    | refused hg => exact ⟨_, hg, fun _ => rfl⟩
  | more _ _ hrest => cases hrest

/-- **A refused call.**  In every state that accurate calls lead to, where the key and the empty
key do not have null pointers, a call of `set` that does not store its value leaves `get` and
`spaceUsed` as they were exactly if it gives up at once: if the evictor's next key is not in the
table. -/
theorem set_unchanged_iff
    (h : (library ε).Reaches Accurate (new maxmem maxLoadFactor evictor hasher) H s)
    (hn : s.view.Valued key) (hempty : s.view.Valued []) (ho : s.Accurate (.set key val size))
    (hkeep : s.KeepsPlaceholder) :
    ∃ es s', s.set key val size = .ok (es, s') ∧
      ((Exit.stored ∉ es → s'.spaceUsed = s.spaceUsed ∧ ∀ k n, s'.seen k n = s.seen k n) ↔
        s.view.Admits size ∨ ∀ k ∈ s.view.queue.head?, s.view.find k = none) := by
  have hs := ready_of_reaches h
  obtain ⟨es, s', hset, htidy, hends, hes⟩ := hs.set hn ho
  refine ⟨es, s', hset, ?_⟩
  by_cases had : s.view.Admits size
  · simp [hes.2 had, had]
  · have hno : Exit.stored ∉ es := mt hes.1 had
    have hfit : ¬ s.view.Fits size := mt Store.admitsVia_of_fits had
    simp only [hno, not_false_eq_true, true_imp_iff, had, false_or]
    constructor
    · -- a key that was handed out and removed can no longer be seen
      rintro ⟨-, hseen⟩ k hk
      by_contra hf
      exact find_ne_none_of_seen hs.tidy htidy hempty (hseen k) hf
        (Store.find_head_of_ends hends hno hfit hk hf)
    · intro hhead
      obtain ⟨⟨ex, rfl, hex⟩, e, hview⟩ := Store.eq_of_ends hends hs.covered hfit hhead
      have hfind : ∀ k, s'.view.find k = s.view.find k := fun k => by rw [hview]; rfl
      refine ⟨congrArg Store.used hview, fun k => seen_eq_of_find hs.tidy htidy (hfind k) ?_⟩
      obtain ⟨g, hg, hl⟩ := exists_grow_of_ends (set_ends hset) hex
      rw [hl]
      exact grow_placeholder hg hkeep k

/-- The evictor's next key has been deleted, and nothing changes. -/
theorem set_unchanged_deleted : ∃ H s, (library LRU).exec (small 2 (some LRU.new))
    [.set [1] (text "a") 1, .del [1], .set [2] (text "b") 2] = some (H, s) ∧
    ∃ es s', s.set [3] (text "c") 1 = .ok (es, s') ∧ (Exit.stored ∉ es →
      s'.spaceUsed = s.spaceUsed ∧ ∀ k n, s'.seen k n = s.seen k n) :=
  Machine.exists_exec ⟨_, _, rfl, by decide⟩ (by decide) fun _ s h
    (hs : s.view.Valued [3] ∧ s.view.Valued [] ∧ s.Accurate (.set [3] (text "c") 1) ∧
      s.KeepsPlaceholder ∧ ∀ k ∈ s.view.queue.head?, s.view.find k = none) =>
    have ⟨es, s', hset, hiff⟩ := set_unchanged_iff h hs.1 hs.2.1 hs.2.2.1 hs.2.2.2.1
    ⟨es, s', hset, hiff.2 (.inr hs.2.2.2.2)⟩

/-- A value larger than `maxmem` is refused after the key 1 has been evicted for it. -/
theorem set_refused_evicting : ∃ s, (library LRU).exec (small 4 (some LRU.new))
    [.set [1] (text "a") 2, .get [1] 0, .set [2] (text "b") 5, .get [1] 0] =
    some ([(.get [1] 0, .get none 0), (.set [2] (text "b") 5, .set [.evicts [1], .misses []]),
      (.get [1] 0, .get (text "a") 2), (.set [1] (text "a") 2, .set [.stored])], s) :=
  ⟨_, rfl⟩

end Impl

end CrankItUp
