import CrankItUp.Machine.Loop

/-!
# Ghosts

A ghost is carried along with the state of a component, for statements about a run that its
states alone do not allow.  The component does not look at it.

* `Loop.withGhost f` : the recursion with a ghost; `f s s' γ` is what an activation from `s` to
  `s'` makes of the ghost `γ`.
* `Machine.Carries` : a machine does to the first component of its states what another one does.
* `Machine.Carries.exists_ghost`, `Machine.Carries.erase` : the runs of the two are the same.
-/

namespace CrankItUp

variable {S G E O R F : Type*}

/-- The states are the same, but for the ghost of the first. -/
def SameState (p : S × G) (s : S) : Prop := p.1 = s

namespace Loop

variable {L : Loop S E F} {f : S → S → G → G} {p q : S × G} {e : E} {es : List E}

/-- Carry a ghost along with the state. -/
def withGhost (L : Loop S E F) (f : S → S → G → G) : Loop (S × G) E F where
  body p := (L.body p.1).map fun q => (q.1, q.2, f p.1 q.2 p.2)
  again := L.again

theorem withGhost_body : (L.withGhost f).body p = .ok (e, q) ↔
    L.body p.1 = .ok (e, q.1) ∧ q.2 = f p.1 q.1 p.2 := by
  obtain ⟨s', γ⟩ := q
  simp only [withGhost, map_eq_ok, Prod.mk.injEq]
  constructor
  · rintro ⟨⟨e', s''⟩, hb, rfl, rfl, rfl⟩
    exact ⟨hb, rfl⟩
  · rintro ⟨hb, rfl⟩
    exact ⟨_, hb, rfl, rfl, rfl⟩

theorem agree_withGhost (p : S × G) :
    Agree SameState ((L.withGhost f).body p) (L.body p.1) := by
  simp only [withGhost]
  cases L.body p.1 with
  | error x => exact rfl
  | ok q => exact ⟨rfl, rfl⟩

theorem agree_run_withGhost (deep : F) (n : ℕ) (p : S × G) :
    Agree SameState ((L.withGhost f).run deep n p) (L.run deep n p.1) := by
  refine agree_run (Q := SameState) rfl n rfl ?_
  rintro a _ - - rfl
  exact agree_withGhost a

theorem Calls.erase (h : (L.withGhost f).Calls p q) : L.Calls p.1 q.1 := by
  obtain ⟨e, hb, hag⟩ := h
  exact ⟨e, (withGhost_body.1 hb).1, hag⟩

theorem Entered.erase (h : (L.withGhost f).Entered p q) : L.Entered p.1 q.1 := by
  induction h with
  | refl => exact entered_self _
  | tail _ hc ih => exact ih.tail hc.erase

end Loop

namespace Machine

variable {M : Machine S O R F} {N : Machine (S × G) O R F} {ok : S → O → Prop}
  {ok' : S × G → O → Prop} {s₀ s : S} {p₀ p : S × G} {H : List (O × R)}

/-- `N` does what `M` does, and carries a ghost along. -/
def Carries (N : Machine (S × G) O R F) (M : Machine S O R F) : Prop :=
  ∀ p o, Agree SameState (N.step p o) (M.step p.1 o)

/-- Every run has a ghost. -/
theorem Carries.exists_ghost (h : N.Carries M) (hr : M.Reaches ok s₀ H s) (γ₀ : G) :
    ∃ γ, N.Reaches (fun p o => ok p.1 o) (s₀, γ₀) H (s, γ) := by
  obtain ⟨⟨s, γ⟩, hp, rfl⟩ : ∃ p, N.Reaches (fun p o => ok p.1 o) (s₀, γ₀) H p ∧
      SameState p s := by
    refine hr.of_agree (Q := fun s p => SameState p s) rfl ?_
    rintro _ p o rfl ho
    exact ⟨ho, Agree.symm (h p o)⟩
  exact ⟨γ, hp⟩

theorem Carries.erase (h : N.Carries M) (hr : N.Reaches ok' p₀ H p) :
    M.Reaches (fun _ _ => True) p₀.1 H p.1 := by
  obtain ⟨s, hs, rfl⟩ : ∃ s, M.Reaches (fun _ _ => True) p₀.1 H s ∧ SameState p s := by
    refine hr.of_agree (Q := SameState) rfl ?_
    rintro p _ o rfl _
    exact ⟨trivial, h p o⟩
  exact hs

end Machine

end CrankItUp
