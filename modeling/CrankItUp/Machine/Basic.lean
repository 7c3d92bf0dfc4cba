import Mathlib.Logic.Relation

/-!
# Machines and their runs

A *machine* is a component with a state that serves one call at a time.  A call either returns
a result and leaves a new state, or ends in a fault, after which there is no machine any more.

## Main definitions

* `Machine S O R F` : calls `O`, results `R`, faults `F`.
* `Machine.Reaches ok s₀ H s` : a run from `s₀` to `s` each of whose calls meets the side
  condition `ok` in the state it is made in.  `H` is the history of the run: the calls with
  their results, the most recent first.
* `Machine.exec` : run a list of calls.
* `Machine.results` : what a client sees of a list of calls, up to the first fault.
* `Machine.Guarded ok s os` : every call of the list `os`, made from `s` on, meets `ok`.
* `Agree Q` : two outcomes are the same fault, or the same result with states related by `Q`.
-/

namespace CrankItUp

universe u v

theorem ok_bind {F : Type u} {α β : Type v} (a : α) (f : α → Except F β) :
    (Except.ok a >>= f) = f a := rfl

theorem bind_eq_ok {F : Type u} {α β : Type v} {x : Except F α} {f : α → Except F β} {b : β} :
    (x >>= f) = .ok b ↔ ∃ a, x = .ok a ∧ f a = .ok b := by
  cases x with
  | error e =>
    constructor
    · intro h; cases h
    · rintro ⟨a, h, -⟩; cases h
  | ok a =>
    constructor
    · exact fun h => ⟨a, rfl, h⟩
    · rintro ⟨_, h, h'⟩; cases h; exact h'

theorem bind_eq_error {F : Type u} {α β : Type v} {x : Except F α} {f : α → Except F β} {e : F} :
    (x >>= f) = .error e ↔ x = .error e ∨ ∃ a, x = .ok a ∧ f a = .error e := by
  cases x with
  | error e' =>
    constructor
    · intro h; cases h; exact .inl rfl
    · rintro (h | ⟨a, h, -⟩) <;> cases h; rfl
  | ok a =>
    constructor
    · exact fun h => .inr ⟨a, rfl, h⟩
    · rintro (h | ⟨_, h, h'⟩)
      · cases h
      · cases h; exact h'

theorem bind_pure_isOk_iff {F : Type u} {α β : Type v} {x : Except F α} {f : α → β} :
    (∃ b, (x >>= fun a => pure (f a)) = .ok b) ↔ ∃ a, x = .ok a := by
  constructor
  · rintro ⟨b, h⟩
    obtain ⟨a, ha, -⟩ := bind_eq_ok.1 h
    exact ⟨a, ha⟩
  · rintro ⟨a, ha⟩
    exact ⟨f a, bind_eq_ok.2 ⟨a, ha, rfl⟩⟩

theorem map_eq_ok {F α β : Type*} {x : Except F α} {f : α → β} {b : β} :
    x.map f = .ok b ↔ ∃ a, x = .ok a ∧ f a = b := by
  cases x <;> simp [Except.map]

/-- A component that serves calls `O` one after another. -/
structure Machine (S O R F : Type*) where
  /-- `step s o` : the call `o` made in state `s`. -/
  step : S → O → Except F (R × S)

/-- Two outcomes agree: both are the same fault, or both return the same result and leave
states related by `Q`. -/
def Agree {S T R F : Type*} (Q : S → T → Prop) : Except F (R × S) → Except F (R × T) → Prop
  | .ok (r, s), .ok (r', t) => r = r' ∧ Q s t
  | .error f, .error f' => f = f'
  | _, _ => False

section Agree

variable {S T R F : Type*} {Q : S → T → Prop} {x : Except F (R × S)} {y : Except F (R × T)}

theorem agree_iff : Agree Q x y ↔ (∃ f, x = .error f ∧ y = .error f) ∨
    ∃ r s t, x = .ok (r, s) ∧ y = .ok (r, t) ∧ Q s t := by
  constructor
  · intro h
    cases x <;> cases y
    · obtain rfl := h
      exact .inl ⟨_, rfl, rfl⟩
    · exact h.elim
    · exact h.elim
    · obtain ⟨hr, hQ⟩ := h
      exact .inr ⟨_, _, _, rfl, congrArg Except.ok (Prod.ext hr.symm rfl), hQ⟩
  · rintro (⟨f, rfl, rfl⟩ | ⟨r, s, t, rfl, rfl, hQ⟩)
    · exact rfl
    · exact ⟨rfl, hQ⟩

theorem Agree.symm (h : Agree Q x y) : Agree (fun t s => Q s t) y x := by
  obtain ⟨f, rfl, rfl⟩ | ⟨r, s, t, rfl, rfl, hQ⟩ := agree_iff.1 h
  · exact rfl
  · exact ⟨rfl, hQ⟩

theorem Agree.bind {S T R S' T' R' : Type v} {Q : S → T → Prop} {Q' : S' → T' → Prop}
    {x : Except F (R × S)} {y : Except F (R × T)} {f : R × S → Except F (R' × S')}
    {g : R × T → Except F (R' × T')} (h : Agree Q x y)
    (hfg : ∀ r s t, Q s t → Agree Q' (f (r, s)) (g (r, t))) : Agree Q' (x >>= f) (y >>= g) := by
  obtain ⟨f, rfl, rfl⟩ | ⟨r, s, t, rfl, rfl, hQ⟩ := agree_iff.1 h
  · exact rfl
  · exact hfg r s t hQ

end Agree

namespace Machine

variable {S T O R F : Type*} (M : Machine S O R F) (N : Machine T O R F)

/-- A run from `s₀` with history `H` (most recent call first), all of whose calls meet `ok`. -/
inductive Reaches (ok : S → O → Prop) (s₀ : S) : List (O × R) → S → Prop
  | start : Reaches ok s₀ [] s₀
  | call {H : List (O × R)} {s s' : S} {o : O} {r : R} :
      Reaches ok s₀ H s → ok s o → M.step s o = .ok (r, s') → Reaches ok s₀ ((o, r) :: H) s'

/-- The results of a list of calls, ending with the first fault. -/
def results : S → List O → List (Except F R)
  | _, [] => []
  | s, o :: os =>
    match M.step s o with
    | .error f => [.error f]
    | .ok (r, s') => .ok r :: results s' os

/-- Run a list of calls; `none` if one of them ends in a fault. -/
def exec : S → List O → Option (List (O × R) × S)
  | s, [] => some ([], s)
  | s, o :: os =>
    match M.step s o with
    | .error _ => none
    | .ok (r, s') => (exec s' os).map fun (H, s'') => (H ++ [(o, r)], s'')

/-- Every call of the list meets `ok` in the state it is made in. -/
def Guarded (ok : S → O → Prop) : S → List O → Prop
  | _, [] => True
  | s, o :: os => ok s o ∧ ∀ r s', M.step s o = .ok (r, s') → Guarded ok s' os

variable {M N} {ok ok' : S → O → Prop} {s₀ s : S} {H : List (O × R)}

namespace Reaches

/-- A predicate on histories and states that holds at the start and is preserved by every call
holds of every run. -/
theorem invariant {I : List (O × R) → S → Prop} (h : M.Reaches ok s₀ H s) (h₀ : I [] s₀)
    (hstep : ∀ H s o r s', I H s → ok s o → M.step s o = .ok (r, s') → I ((o, r) :: H) s') :
    I H s := by
  induction h with
  | start => exact h₀
  | call _ hok hst ih => exact hstep _ _ _ _ _ ih hok hst

theorem state_invariant {I : S → Prop} (h : M.Reaches ok s₀ H s) (h₀ : I s₀)
    (hstep : ∀ s o r s', I s → ok s o → M.step s o = .ok (r, s') → I s') : I s :=
  h.invariant (I := fun _ s => I s) h₀ fun _ s o r s' => hstep s o r s'

theorem mono (h : M.Reaches ok s₀ H s) (himp : ∀ s o, ok s o → ok' s o) :
    M.Reaches ok' s₀ H s := by
  induction h with
  | start => exact .start
  | call _ ho hst ih => exact .call ih (himp _ _ ho) hst

theorem append {H' : List (O × R)} {s' : S} (h : M.Reaches ok s₀ H s)
    (h' : M.Reaches ok s H' s') : M.Reaches ok s₀ (H' ++ H) s' := by
  induction h' with
  | start => exact h
  | call _ ho hst ih => exact .call ih ho hst

end Reaches

theorem reaches_of_exec {l : List O} {p : List (O × R) × S} (h : M.exec s l = some p)
    (hok : M.Guarded ok s l) : M.Reaches ok s p.1 p.2 := by
  induction l generalizing s p with
  | nil => cases h; exact .start
  | cons o l ih =>
    simp only [exec] at h
    split at h
    · cases h
    · rename_i r s' hst
      obtain ⟨q, hq, rfl⟩ := Option.map_eq_some_iff.1 h
      exact Reaches.append (.call .start hok.1 hst) (ih hq (hok.2 _ _ hst))

/-- What holds of all guarded runs that end well holds of a run that has been executed. -/
theorem exists_exec {os : List O} {C D : List (O × R) → S → Prop}
    (h : ∃ H s', M.exec s os = some (H, s') ∧ D H s') (hok : M.Guarded ok s os)
    (hC : ∀ H s', M.Reaches ok s H s' → D H s' → C H s') :
    ∃ H s', M.exec s os = some (H, s') ∧ C H s' := by
  obtain ⟨H, s', hex, hD⟩ := h
  exact ⟨H, s', hex, hC H s' (reaches_of_exec hex hok) hD⟩

/-- The outcome of a run that has been executed, by evaluation. -/
theorem exists_exec_of_any {os : List O} {D : List (O × R) → S → Prop}
    [∀ H s, Decidable (D H s)] (h : (M.exec s os).any fun p => decide (D p.1 p.2)) :
    ∃ H s', M.exec s os = some (H, s') ∧ D H s' := by
  obtain ⟨⟨H, s'⟩, hex, hD⟩ := (Option.any_eq_true _ _).1 h
  exact ⟨H, s', hex, of_decide_eq_true hD⟩

theorem Guarded.and : ∀ {l : List O} {s : S}, M.Guarded ok s l → M.Guarded ok' s l →
    M.Guarded (fun s o => ok s o ∧ ok' s o) s l
  | [], _, _, _ => trivial
  | _ :: _, _, ⟨ho, hos⟩, ⟨ho', hos'⟩ =>
    ⟨⟨ho, ho'⟩, fun r s' hst => Guarded.and (hos r s' hst) (hos' r s' hst)⟩

theorem guarded_true (s : S) (os : List O) : M.Guarded (fun _ _ => True) s os := by
  induction os generalizing s with
  | nil => trivial
  | cons o os ih => exact ⟨trivial, fun _ s' _ => ih s'⟩

instance Guarded.decidable (ok : S → O → Prop) [∀ s o, Decidable (ok s o)] :
    ∀ (s : S) (os : List O), Decidable (M.Guarded ok s os)
  | _, [] => isTrue trivial
  | s, o :: os =>
    match h : M.step s o with
    | .error _ => decidable_of_iff (ok s o)
        ⟨fun ho => ⟨ho, fun _ _ h' => by rw [h] at h'; cases h'⟩, And.left⟩
    | .ok (_, s') =>
      have := Guarded.decidable ok s' os
      decidable_of_iff (ok s o ∧ M.Guarded ok s' os)
        ⟨fun ⟨ho, hos⟩ => ⟨ho, fun _ _ h' => by rw [h] at h'; cases h'; exact hos⟩,
          fun ⟨ho, hos⟩ => ⟨ho, hos _ _ h⟩⟩

theorem Guarded.of_agree {Q : S → T → Prop} {ok' : T → O → Prop}
    (hstep : ∀ s t o, Q s t → ok s o → ok' t o ∧ Agree Q (M.step s o) (N.step t o)) :
    ∀ (os : List O) (s : S) (t : T), Q s t → M.Guarded ok s os → N.Guarded ok' t os := by
  intro os
  induction os with
  | nil => intro s t _ _; trivial
  | cons o os ih =>
    rintro s t hQ ⟨ho, hos⟩
    obtain ⟨ho', h⟩ := hstep s t o hQ ho
    -- where the second machine returns, so does the first, and the rest of its calls is guarded
    refine ⟨ho', fun r t' ht => ?_⟩
    obtain ⟨f, -, hf⟩ | ⟨r', s', t'', hs, ht', hQ'⟩ := agree_iff.1 h
    · cases ht.symm.trans hf
    · cases ht.symm.trans ht'
      exact ih _ _ hQ' (hos _ _ hs)

/-- If agreeing states give agreeing outcomes, every run of one machine is matched by a run of the
other with the same history. -/
theorem Reaches.of_agree {Q : S → T → Prop} {ok' : T → O → Prop} {t₀ : T}
    (h : M.Reaches ok s₀ H s) (h₀ : Q s₀ t₀)
    (hstep : ∀ s t o, Q s t → ok s o → ok' t o ∧ Agree Q (M.step s o) (N.step t o)) :
    ∃ t, N.Reaches ok' t₀ H t ∧ Q s t := by
  induction h with
  | start => exact ⟨t₀, .start, h₀⟩
  | @call H s s' o r _ ho hst ih =>
    obtain ⟨t, ht, hQ⟩ := ih
    obtain ⟨ho', hag⟩ := hstep s t o hQ ho
    obtain ⟨f, hf, -⟩ | ⟨r', s'', t', hs, ht', hQ'⟩ := agree_iff.1 hag
    · cases hst.symm.trans hf
    · cases hst.symm.trans hs
      exact ⟨t', .call ht ho' ht', hQ'⟩

/-- **Lockstep.**  If agreeing states give agreeing outcomes for every guarded call, then two
guarded runs of the same calls from agreeing states show the same results. -/
theorem results_eq_of_agree {Q : S → T → Prop} {ok' : T → O → Prop}
    (hstep : ∀ s t o, Q s t → ok s o → ok' t o → Agree Q (M.step s o) (N.step t o)) :
    ∀ (os : List O) (s : S) (t : T), Q s t → M.Guarded ok s os → N.Guarded ok' t os →
      M.results s os = N.results t os := by
  intro os
  induction os with
  | nil => intro s t _ _ _; rfl
  | cons o os ih =>
    rintro s t hQ ⟨ho, hos⟩ ⟨ho', hos'⟩
    -- both calls end in the same fault, or the runs go on from agreeing states
    obtain ⟨f, hs, ht⟩ | ⟨r, s', t', hs, ht, hQ'⟩ := agree_iff.1 (hstep s t o hQ ho ho')
    · simp only [results, hs, ht]
    · simp only [results, hs, ht, ih _ _ hQ' (hos _ _ hs) (hos' _ _ ht)]

end Machine

end CrankItUp
