import CrankItUp.Machine.Loop
import Mathlib.Data.List.Forall2

/-!
# Leaving out calls

Two runs of which the second leaves out some calls of the first, as a client sees them who is
not told everything that a call does.

* `Machine.observe f` : a machine of whose results a client sees what `f` leaves of them.
* `Machine.adapt g f` : a machine behind an interface, which translates calls and results.
* `Loop.blind` : a recursion that says of its activations only which are recursive calls.
* `kept cs`, `keptResults cs rs` : what is left of calls and results without the marked calls.
* `Machine.Matched keep drop s t cs` : side conditions on the two runs.
* `Machine.keptResults_results` : if the calls left out do not matter to what follows, the second
  run has the results that are left of the first.
-/

namespace CrankItUp

universe u

variable {S T E O R F : Type*}

/-! ### Results through a function -/

/-- Show the result of a computation through `f`. -/
def through {R' : Type*} (f : R → R') (x : Except F (R × S)) : Except F (R' × S) :=
  x.map fun p => (f p.1, p.2)

theorem through_bind {A S R R' : Type u} {x : Except F A} {f : A → Except F (R × S)}
    (h : R → R') : through h (x >>= f) = x >>= fun a => through h (f a) := by
  cases x <;> rfl

theorem Agree.through {R' : Type*} {Q : S → T → Prop} {x : Except F (R × S)}
    {y : Except F (R × T)} (h : Agree Q x y) (f : R → R') :
    Agree Q (through f x) (through f y) := by
  obtain ⟨x', rfl, rfl⟩ | ⟨r, s, t, rfl, rfl, hQ⟩ := agree_iff.1 h
  · exact rfl
  · exact ⟨rfl, hQ⟩

/-! ### Recursions whose ends are hidden -/

namespace Loop

/-- The recursion, with nothing said about the end of an activation but whether it is a
recursive call. -/
def blind (L : Loop S E F) : Loop S Bool F where
  body s := through L.again (L.body s)
  again := id

variable {L : Loop S E F}

theorem blind_body (s : S) : L.blind.body s = through L.again (L.body s) := rfl
theorem blind_again : L.blind.again = id := rfl

theorem calls_of_blind {s s' : S} (h : L.blind.Calls s s') : L.Calls s s' := by
  obtain ⟨b, hb, hag⟩ := h
  obtain ⟨⟨e, s''⟩, he, hp⟩ := map_eq_ok.1 hb
  cases hp
  exact ⟨e, he, hag⟩

theorem entered_of_blind {s a : S} (h : L.blind.Entered s a) : L.Entered s a := by
  induction h with
  | refl => exact entered_self s
  | tail _ hc ih => exact ih.tail (calls_of_blind hc)

theorem run_blind (deep : F) (n : ℕ) (s : S) :
    L.blind.run deep n s = through (List.map L.again) (L.run deep n s) := by
  induction n generalizing s with
  | zero => rfl
  | succ n ih =>
    simp only [run, blind_body, blind_again, id, ih]
    cases hb : L.body s with
    | error f => rfl
    | ok p =>
      -- a recursive call of the one is a recursive call of the other
      cases hag : L.again p.1 with
      | false => simp [through, Except.map, hag]
      | true => cases hr : L.run deep n p.2 <;> simp [through, Except.map, hag, hr]

end Loop

/-! ### Two runs -/

/-- The calls that are not marked. -/
def kept (cs : List (O × Bool)) : List O := (cs.filter fun c => !c.2).map Prod.fst

/-- Of the results of calls, those of the calls that are not marked. -/
def keptResults (cs : List (O × Bool)) (rs : List R) : List R :=
  ((cs.zip rs).filter fun p => !p.1.2).map Prod.snd

namespace Machine

/-- The machine of whose results a client sees what `f` leaves of them. -/
def observe {R' : Type*} (M : Machine S O R F) (f : R → R') : Machine S O R' F :=
  ⟨fun s o => through f (M.step s o)⟩

/-- The machine behind an interface, which translates calls by `g` and results by `f`. -/
def adapt {O' R' : Type*} (M : Machine S O R F) (g : O' → O) (f : R → R') :
    Machine S O' R' F :=
  ⟨fun s o => through f (M.step s (g o))⟩

theorem results_adapt {O' R' : Type*} (M : Machine S O R F) (g : O' → O) (f : R → R') (s : S)
    (os : List O') :
    (M.adapt g f).results s os = (M.results s (os.map g)).map (Except.map f) := by
  induction os generalizing s with
  | nil => rfl
  | cons o os ih =>
    cases hst : M.step s (g o) with
    | error e => simp [results, adapt, through, Except.map, hst]
    | ok p =>
      obtain ⟨r, s'⟩ := p
      have ih' := ih s'
      simp only [results, List.map_cons, hst, adapt, through, Except.map] at ih' ⊢
      rw [ih']

theorem results_congr {M N : Machine S O R F} {I : S → Prop} {ok : O → Prop}
    (hstep : ∀ s o, I s → ok o → M.step s o = N.step s o)
    (hI : ∀ s o r s', I s → ok o → N.step s o = .ok (r, s') → I s') (os : List O) (s : S)
    (hs : I s) (hos : ∀ o ∈ os, ok o) : M.results s os = N.results s os := by
  induction os generalizing s with
  | nil => rfl
  | cons o os ih =>
    have ho := hos o List.mem_cons_self
    rw [results, results, hstep s o hs ho]
    cases hst : N.step s o with
    | error e => rfl
    | ok p =>
      have hp := hI s o p.1 p.2 hs ho hst
      exact congrArg (_ :: ·) (ih p.2 hp fun o ho => hos o (List.mem_cons_of_mem _ ho))

/-- Two machines that return from every call, with related results and in related states, show
related results. -/
theorem results_forall₂ {R' : Type*} {M : Machine S O R F} {N : Machine T O R' F}
    {Q : S → T → Prop} {P : R → R' → Prop} {ok : O → Prop}
    (hstep : ∀ s t o, Q s t → ok o → ∃ r s' r' t', M.step s o = .ok (r, s') ∧
      N.step t o = .ok (r', t') ∧ P r r' ∧ Q s' t') (os : List O) (s : S) (t : T) (hQ : Q s t)
    (hos : ∀ o ∈ os, ok o) :
    List.Forall₂ (fun x y => ∃ r r', x = .ok r ∧ y = .ok r' ∧ P r r') (M.results s os)
      (N.results t os) := by
  induction os generalizing s t with
  | nil => exact .nil
  | cons o os ih =>
    obtain ⟨r, s', r', t', hM, hN, hP, hQ'⟩ := hstep s t o hQ (hos o List.mem_cons_self)
    simp only [results, hM, hN]
    exact .cons ⟨r, r', rfl, rfl, hP⟩ (ih s' t' hQ' fun o ho => hos o (List.mem_cons_of_mem _ ho))

variable (M : Machine S O R F) (N : Machine T O R F) (keep : S → T → O → Prop) (drop : S → O → Prop)

/-- Every call of the list `cs` meets its condition in the state, or the two states, in which it
is made: `drop` if it is marked, and made in the first run only, and otherwise `keep`. -/
def Matched : S → T → List (O × Bool) → Prop
  | _, _, [] => True
  | s, t, (o, true) :: cs => drop s o ∧ ∀ r s', M.step s o = .ok (r, s') → Matched s' t cs
  | s, t, (o, false) :: cs => keep s t o ∧ ∀ r s' r' t', M.step s o = .ok (r, s') →
      N.step t o = .ok (r', t') → Matched s' t' cs

instance Matched.decidable [∀ s t o, Decidable (keep s t o)] [∀ s o, Decidable (drop s o)] :
    ∀ (s : S) (t : T) (cs : List (O × Bool)), Decidable (Matched M N keep drop s t cs)
  | _, _, [] => isTrue trivial
  | s, t, (o, true) :: cs =>
    match h : M.step s o with
    | .error _ => decidable_of_iff (drop s o)
        ⟨fun ho => ⟨ho, fun _ _ h' => by rw [h] at h'; cases h'⟩, And.left⟩
    | .ok (_, s') =>
      have := Matched.decidable s' t cs
      decidable_of_iff (drop s o ∧ Matched M N keep drop s' t cs)
        ⟨fun ⟨ho, hcs⟩ => ⟨ho, fun _ _ h' => by rw [h] at h'; cases h'; exact hcs⟩,
          fun ⟨ho, hcs⟩ => ⟨ho, hcs _ _ h⟩⟩
  | s, t, (o, false) :: cs =>
    match h : M.step s o, h' : N.step t o with
    | .error _, _ => decidable_of_iff (keep s t o)
        ⟨fun ho => ⟨ho, fun _ _ _ _ h'' => by rw [h] at h''; cases h''⟩, And.left⟩
    | .ok _, .error _ => decidable_of_iff (keep s t o)
        ⟨fun ho => ⟨ho, fun _ _ _ _ _ h'' => by rw [h'] at h''; cases h''⟩, And.left⟩
    | .ok (_, s'), .ok (_, t') =>
      have := Matched.decidable s' t' cs
      decidable_of_iff (keep s t o ∧ Matched M N keep drop s' t' cs)
        ⟨fun ⟨ho, hcs⟩ => ⟨ho, fun _ _ _ _ h₁ h₂ => by
            rw [h] at h₁; rw [h'] at h₂; cases h₁; cases h₂; exact hcs⟩,
          fun ⟨ho, hcs⟩ => ⟨ho, hcs _ _ _ _ h h'⟩⟩

variable {M N keep drop} {Q : S → T → Prop} {I : S → Prop}

/-- **Leaving out calls.**  Suppose that calls made in both runs keep the states related and
agree, and that a call made in the first run only returns and keeps them related.  Then the
second run has the results that the first has without those of the marked calls. -/
theorem keptResults_results (hI : ∀ s o r s', I s → M.step s o = .ok (r, s') → I s')
    (hkeep : ∀ s t o, I s → Q s t → keep s t o → Agree Q (M.step s o) (N.step t o))
    (hdrop : ∀ s t o, I s → Q s t → drop s o → ∃ r s', M.step s o = .ok (r, s') ∧ Q s' t)
    (cs : List (O × Bool)) (s : S) (t : T) (hs : I s) (hQ : Q s t)
    (hcs : Matched M N keep drop s t cs) :
    keptResults cs (M.results s (cs.map Prod.fst)) = N.results t (kept cs) := by
  induction cs generalizing s t with
  | nil => rfl
  | cons c cs ih =>
    obtain ⟨o, _ | _⟩ := c
    · -- the call is made in both runs
      obtain ⟨ho, hcs⟩ := hcs
      obtain ⟨f, hM, hN⟩ | ⟨r, s', t', hM, hN, hQ'⟩ := agree_iff.1 (hkeep s t o hs hQ ho)
      · simp [keptResults, kept, results, hM, hN]
      · have hrest := ih s' t' (hI _ _ _ _ hs hM) hQ' (hcs _ _ _ _ hM hN)
        simp only [keptResults, kept] at hrest
        simp [keptResults, kept, results, hM, hN, hrest]
    · -- the call is made in the first run only, and its result is left out
      obtain ⟨ho, hcs⟩ := hcs
      obtain ⟨r, s', hM, hQ'⟩ := hdrop s t o hs hQ ho
      have hrest := ih s' t (hI _ _ _ _ hs hM) hQ' (hcs _ _ hM)
      simp only [keptResults, kept] at hrest
      simp [keptResults, kept, results, hM, hrest]

end Machine

end CrankItUp
