import CrankItUp.Machine.Basic
import Mathlib.Data.Nat.Notation

/-!
# Tail recursion

A function that calls itself in tail position, with the same arguments, is a loop: each of its
activations runs a body, and either returns or hands its state to the next activation.

## Main definitions

* `Loop S E F` : the body of the loop; `E` says how an activation ends, and `again` which ends
  are recursive calls.
* `Loop.run n` : at most `n` nested activations, with the list of their ends.
* `Loop.Entered s a` : an activation started in `s` leads to a nested one that starts in `a`.
* `Loop.starts n s` : the states in which these activations start, computed.
* `Loop.Ends s es s'` : the recursion started in `s` comes to an end in `s'`.
-/

namespace CrankItUp

/-- A tail-recursive function: its body, and which ends of an activation are recursive calls. -/
structure Loop (S E F : Type*) where
  body : S → Except F (E × S)
  again : E → Bool

namespace Loop

variable {S T E F : Type*} (L : Loop S E F)

/-- Run at most `n` nested activations; `deep` is the fault of a deeper recursion. -/
def run (deep : F) : ℕ → S → Except F (List E × S)
  | 0, _ => .error deep
  | n + 1, s =>
    match L.body s with
    | .error f => .error f
    | .ok (e, s') =>
      if L.again e then
        match run deep n s' with
        | .error f => .error f
        | .ok (es, s'') => .ok (e :: es, s'')
      else .ok ([e], s')

/-- The activation that starts in `s` calls one that starts in `s'`. -/
def Calls (s s' : S) : Prop := ∃ e, L.body s = .ok (e, s') ∧ L.again e = true

/-- The recursion that starts in `s` has an activation that starts in `a`. -/
def Entered (s a : S) : Prop := Relation.ReflTransGen L.Calls s a

/-- The states in which the first `n` activations start. -/
def starts : ℕ → S → List S
  | 0, _ => []
  | n + 1, s =>
    s :: match L.body s with
      | .error _ => []
      | .ok (e, s') => if L.again e then starts n s' else []

/-- The recursion that starts in `s` returns with state `s'`; `es` are the ends of its
activations, the outermost first. -/
inductive Ends : S → List E → S → Prop
  | last {s s' : S} {e : E} : L.body s = .ok (e, s') → L.again e = false → Ends s [e] s'
  | more {s s₁ s' : S} {e : E} {es : List E} :
      L.body s = .ok (e, s₁) → L.again e = true → Ends s₁ es s' → Ends s (e :: es) s'

variable {L}

theorem entered_self (s : S) : L.Entered s s := Relation.ReflTransGen.refl

theorem Entered.head {s s' a : S} (h : L.Calls s s') (h' : L.Entered s' a) : L.Entered s a :=
  Relation.ReflTransGen.head h h'

/-- What every recursive call preserves holds in all activations. -/
theorem Entered.invariant {P : S → Prop} {s a : S} (h : L.Entered s a) (h₀ : P s)
    (hbody : ∀ a e a', L.Entered s a → P a → L.body a = .ok (e, a') → L.again e = true → P a') :
    P a := by
  induction h with
  | refl => exact h₀
  | tail hsa hc ih =>
    obtain ⟨e, hb, hag⟩ := hc
    exact hbody _ e _ hsa ih hb hag

theorem ends_of_run {deep : F} {n : ℕ} {s s' : S} {es : List E}
    (h : L.run deep n s = .ok (es, s')) : L.Ends s es s' := by
  induction n generalizing s es with
  | zero => cases h
  | succ n ih =>
    simp only [run] at h
    split at h
    · cases h
    · rename_i e s₁ hb
      split at h
      · rename_i hag
        split at h
        · cases h
        · rename_i es' s'' hr
          cases h
          exact .more hb hag (ih hr)
      · rename_i hag
        cases h
        exact .last hb (by simpa using hag)

theorem exists_ends_of_run (deep : F) (n : ℕ) {s : S} {D : S → Prop} [∀ s, Decidable (D s)]
    (h : (L.run deep n s).toOption.any fun p => decide (D p.2)) :
    ∃ es s', L.Ends s es s' ∧ D s' := by
  obtain ⟨⟨es, s'⟩, hrun, hD⟩ := (Option.any_eq_true _ _).1 h
  cases hr : L.run deep n s with
  | error f => rw [hr] at hrun; cases hrun
  | ok p =>
    rw [hr] at hrun
    cases hrun
    exact ⟨es, s', ends_of_run hr, of_decide_eq_true hD⟩

/-- If every recursive call decreases the measure `μ`, a recursion of at most `n > μ s`
activations is not cut short. -/
theorem run_eq_run {deep : F} {μ : S → ℕ} (hμ : ∀ s s', L.Calls s s' → μ s' < μ s) :
    ∀ (n m : ℕ) (s : S), μ s < n → μ s < m → L.run deep n s = L.run deep m s := by
  intro n
  induction n with
  | zero => intro m s h; omega
  | succ n ih =>
    intro m s hn hm
    obtain ⟨m, rfl⟩ : ∃ k, m = k + 1 := ⟨m - 1, by omega⟩
    simp only [run]
    cases hb : L.body s with
    | error f => rfl
    | ok p =>
      obtain ⟨e, s'⟩ := p
      -- a recursive call decreases the measure, so that both bounds can drop by one
      by_cases hag : L.again e = true
      · have hlt := hμ s s' ⟨e, hb, hag⟩
        simp only [hag, ↓reduceIte, ih m s' (by omega) (by omega)]
      · simp only [hag]
        rfl

theorem Ends.tail {s s₁ s' : S} {e : E} {es : List E} (h : L.Ends s es s')
    (hb : L.body s = .ok (e, s₁)) (hag : L.again e = true) :
    ∃ es', es = e :: es' ∧ L.Ends s₁ es' s' := by
  cases h with
  | last hb' hag' =>
    cases hb.symm.trans hb'
    rw [hag] at hag'
    cases hag'
  | more hb' _ hrest =>
    cases hb.symm.trans hb'
    exact ⟨_, rfl, hrest⟩

theorem run_of_length_le {deep : F} {s s' : S} {es : List E} (h : L.Ends s es s') :
    ∀ n, es.length ≤ n → L.run deep n s = .ok (es, s') := by
  induction h with
  | last hb hag =>
    intro n hn
    obtain ⟨m, rfl⟩ : ∃ m, n = m + 1 := ⟨n - 1, by simp at hn; omega⟩
    simp [run, hb, hag]
  | more hb hag _ ih =>
    intro n hn
    rw [List.length_cons] at hn
    obtain ⟨m, rfl⟩ : ∃ m, n = m + 1 := ⟨n - 1, by omega⟩
    simp [run, hb, hag, ih m (by omega)]

theorem run_ok {deep : F} {μ : S → ℕ} (hμ : ∀ s s', L.Calls s s' → μ s' < μ s) (n : ℕ) (s : S)
    (hn : μ s < n) (hok : ∀ a, L.Entered s a → ∃ p, L.body a = .ok p) :
    ∃ p, L.run deep n s = .ok p := by
  induction n generalizing s with
  | zero => omega
  | succ n ih =>
    obtain ⟨⟨e, s'⟩, hb⟩ := hok s (entered_self s)
    simp only [run, hb]
    by_cases hag : L.again e = true
    · have hc : L.Calls s s' := ⟨e, hb, hag⟩
      have hlt := hμ s s' hc
      obtain ⟨p, hp⟩ := ih s' (by omega) fun a ha => hok a (.head hc ha)
      simp [hag, hp]
    · simp [hag]

theorem run_ne_deep {deep : F} {μ : S → ℕ} (hμ : ∀ s s', L.Calls s s' → μ s' < μ s)
    (hbody : ∀ a, L.body a ≠ .error deep) (n : ℕ) (s : S) (hn : μ s < n) :
    L.run deep n s ≠ .error deep := by
  induction n generalizing s with
  | zero => omega
  | succ n ih =>
    simp only [run]
    cases hb : L.body s with
    | error f => simpa [hb] using hbody s
    | ok p =>
      obtain ⟨e, s'⟩ := p
      by_cases hag : L.again e = true
      · have hlt := hμ s s' ⟨e, hb, hag⟩
        have hr := ih s' (by omega)
        simp only [hag, ↓reduceIte]
        cases hrun : L.run deep n s' with
        | error f => simpa [hrun] using hr
        | ok q => simp
      · simp [hag]

theorem entered_iff_mem_starts {μ : S → ℕ} (hμ : ∀ s s', L.Calls s s' → μ s' < μ s) {a : S} :
    ∀ (n : ℕ) (s : S), μ s < n → (L.Entered s a ↔ a ∈ L.starts n s) := by
  intro n
  induction n with
  | zero => intro s h; omega
  | succ n ih =>
    intro s hn
    rw [starts, List.mem_cons]
    constructor
    · intro h
      cases h using Relation.ReflTransGen.head_induction_on with
      | refl => exact .inl rfl
      | head hc hs =>
        obtain ⟨e, hb, hag⟩ := hc
        have hlt := hμ _ _ ⟨e, hb, hag⟩
        simp only [hb, hag, ↓reduceIte]
        exact .inr ((ih _ (by omega)).1 hs)
    · rintro (rfl | h)
      · exact entered_self a
      · cases hb : L.body s with
        | error f => simp [hb] at h
        | ok p =>
          obtain ⟨e, s'⟩ := p
          simp only [hb] at h
          split at h
          · rename_i hag
            have hlt := hμ _ _ ⟨e, hb, hag⟩
            exact .head ⟨e, hb, hag⟩ ((ih _ (by omega)).2 h)
          · cases h

namespace Ends

theorem invariant {P : S → Prop} {s s' : S} {es : List E} (h : L.Ends s es s') (h₀ : P s)
    (hbody : ∀ a e a', L.Entered s a → e ∈ es → P a → L.body a = .ok (e, a') → P a') :
    P s' := by
  induction h with
  | last hb _ => exact hbody _ _ _ (entered_self _) (by simp) h₀ hb
  | more hb hag _ ih =>
    refine ih (hbody _ _ _ (entered_self _) (by simp) h₀ hb) fun a e a' ha he => ?_
    exact hbody a e a' (.head ⟨_, hb, hag⟩ ha) (List.mem_cons_of_mem _ he)

theorem of_entered {s s' a : S} {es : List E} (h : L.Ends s es s') (ha : L.Entered s a) :
    ∃ es', L.Ends a es' s' := by
  induction ha using Relation.ReflTransGen.head_induction_on generalizing es with
  | refl => exact ⟨es, h⟩
  | head hc _ ih =>
    obtain ⟨e, hb, hag⟩ := hc
    cases h with
    | last hb' hno =>
      cases hb.symm.trans hb'
      simp [hag] at hno
    | more hb' _ hrest =>
      cases hb.symm.trans hb'
      exact ih hrest

theorem body_isOk {s s' a : S} {es : List E} (h : L.Ends s es s') (ha : L.Entered s a) :
    ∃ e a', L.body a = .ok (e, a') := by
  obtain ⟨es', h'⟩ := h.of_entered ha
  cases h' with
  | last hb _ => exact ⟨_, _, hb⟩
  | more hb _ _ => exact ⟨_, _, hb⟩

/-- If every recursive call decreases the measure `μ`, there are at most `μ s + 1` activations. -/
theorem length_le {μ : S → ℕ} (hμ : ∀ s s', L.Calls s s' → μ s' < μ s) {s s' : S} {es : List E}
    (h : L.Ends s es s') : es.length ≤ μ s + 1 := by
  induction h with
  | last => simp
  | more hb hag _ ih =>
    have hlt := hμ _ _ ⟨_, hb, hag⟩
    rw [List.length_cons]
    omega

theorem run_eq {deep : F} {μ : S → ℕ} (hμ : ∀ s s', L.Calls s s' → μ s' < μ s) {s s' : S}
    {es : List E} (h : L.Ends s es s') (n : ℕ) (hn : μ s < n) : L.run deep n s = .ok (es, s') := by
  have hle := h.length_le hμ
  exact run_of_length_le h n (by omega)

theorem unique {s s₁ s₂ : S} {es₁ es₂ : List E} (h₁ : L.Ends s es₁ s₁) (h₂ : L.Ends s es₂ s₂) :
    es₁ = es₂ ∧ s₁ = s₂ := by
  induction h₁ generalizing es₂ with
  | last hb hno =>
    cases h₂ with
    | last hb' _ => cases hb.symm.trans hb'; exact ⟨rfl, rfl⟩
    | more hb' hag _ => cases hb.symm.trans hb'; simp [hag] at hno
  | more hb hag _ ih =>
    cases h₂ with
    | last hb' hno => cases hb.symm.trans hb'; simp [hag] at hno
    | more hb' _ h =>
      cases hb.symm.trans hb'
      obtain ⟨rfl, rfl⟩ := ih h
      exact ⟨rfl, rfl⟩

/-- Every end belongs to an activation.  One that is no recursive call leaves the final state,
and otherwise the recursion goes on from the state that it leaves. -/
theorem of_mem {s s' : S} {es : List E} {e : E} (h : L.Ends s es s') (he : e ∈ es) :
    ∃ a a', L.Entered s a ∧ L.body a = .ok (e, a') ∧ (L.again e = false → a' = s') ∧
      (L.again e = true → ∃ es', L.Ends a' es' s' ∧ ∀ x ∈ es', x ∈ es) := by
  induction h with
  | last hb hno =>
    rw [List.mem_singleton.1 he]
    exact ⟨_, _, entered_self _, hb, fun _ => rfl, fun hag => by simp [hno] at hag⟩
  | more hb hag hes ih =>
    rcases List.mem_cons.1 he with rfl | he
    · exact ⟨_, _, entered_self _, hb, fun hno => by simp [hag] at hno,
        fun _ => ⟨_, hes, fun x hx => List.mem_cons_of_mem _ hx⟩⟩
    · obtain ⟨a, a', ha, hba, hlast, hmore⟩ := ih he
      refine ⟨a, a', .head ⟨_, hb, hag⟩ ha, hba, hlast, fun hage => ?_⟩
      obtain ⟨es', hends, hsub⟩ := hmore hage
      exact ⟨es', hends, fun x hx => List.mem_cons_of_mem _ (hsub x hx)⟩

end Ends

theorem agree_run {L' : Loop T E F} {Q : S → T → Prop} (hag : L.again = L'.again) {deep : F}
    (n : ℕ) {s : S} {t : T} (hQ : Q s t)
    (hbody : ∀ a b, L.Entered s a → L'.Entered t b → Q a b → Agree Q (L.body a) (L'.body b)) :
    Agree Q (L.run deep n s) (L'.run deep n t) := by
  induction n generalizing s t with
  | zero => exact rfl
  | succ n ih =>
    simp only [run]
    obtain ⟨f, hb, hb'⟩ | ⟨e, s', t', hb, hb', hQ'⟩ :=
      agree_iff.1 (hbody s t (entered_self s) (entered_self t) hQ)
    · simp only [hb, hb']
      exact rfl
    · simp only [hb, hb', ← hag]
      -- the ends are the same: both recursions go on, or both return
      by_cases ha : L.again e = true
      · simp only [ha, ↓reduceIte]
        have hrest := ih hQ' fun a b hea heb =>
          hbody a b (.head ⟨e, hb, ha⟩ hea) (.head ⟨e, hb', hag ▸ ha⟩ heb)
        obtain ⟨f, hr, hr'⟩ | ⟨es, s'', t'', hr, hr', hQ''⟩ := agree_iff.1 hrest
        · simp only [hr, hr']
          exact rfl
        · simp only [hr, hr']
          exact ⟨rfl, hQ''⟩
      · simp only [ha]
        exact ⟨rfl, hQ'⟩

/-- If the bodies agree on related states, every activation of the second recursion is related
to one of the first. -/
theorem entered_of_agree {L' : Loop T E F} {Q : S → T → Prop} (hag : L.again = L'.again)
    {s : S} {t b : T} (hQ : Q s t) (h : L'.Entered t b)
    (hbody : ∀ a b, L.Entered s a → Q a b → Agree Q (L.body a) (L'.body b)) :
    ∃ a, L.Entered s a ∧ Q a b := by
  induction h with
  | refl => exact ⟨s, entered_self s, hQ⟩
  | tail _ hc ih =>
    obtain ⟨a, ha, hab⟩ := ih
    obtain ⟨e, hb, he⟩ := hc
    obtain ⟨f, -, hf⟩ | ⟨e', a', _, hL, hb', hQ'⟩ := agree_iff.1 (hbody a _ ha hab)
    · cases hb.symm.trans hf
    · cases hb.symm.trans hb'
      exact ⟨a', ha.tail ⟨e, hL, hag ▸ he⟩, hQ'⟩

end Loop

end CrankItUp
