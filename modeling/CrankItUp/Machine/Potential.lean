import CrankItUp.Machine.Loop
import Mathlib.Algebra.GroupWithZero.Nat

/-!
# Amortised cost

A single call may cost much if many cheap ones have paid for it.  The potential of a state is what
has been paid in advance: a call whose cost exceeds its budget has to lower the potential.

* `Machine.metered cost` : the machine with a meter, to which every call adds its cost.
* `Machine.Reaches.metered_le` : over a whole run, the budgets of the calls cover their costs.
* `Loop.Ends.sum_starts_le` : the same for the activations of a recursion, of which only the last
  one has a budget.
-/

namespace CrankItUp

variable {S E O R F : Type*}

namespace Machine

variable {M : Machine S O R F} {cost : S → O → ℕ} {p q : S × ℕ} {o : O} {r : R}

/-- The machine with a meter, to which every call adds its cost. -/
def metered (M : Machine S O R F) (cost : S → O → ℕ) : Machine (S × ℕ) O R F :=
  ⟨fun p o => (M.step p.1 o).map fun q => (q.1, q.2, p.2 + cost p.1 o)⟩

theorem metered_step : (M.metered cost).step p o = .ok (r, q) ↔
    M.step p.1 o = .ok (r, q.1) ∧ q.2 = p.2 + cost p.1 o := by
  obtain ⟨s', n'⟩ := q
  simp only [metered, map_eq_ok, Prod.mk.injEq]
  constructor
  · rintro ⟨⟨r', s''⟩, hst, rfl, rfl, rfl⟩
    exact ⟨hst, rfl⟩
  · rintro ⟨hst, rfl⟩
    exact ⟨_, hst, rfl, rfl, rfl⟩

/-- **The potential method.**  Let the cost of every call and the potential after it be covered by
the potential before it, and by a budget `c` if the call is one of `D`.  Then what a run has cost
is covered by the potential at its start and the budgets of its calls. -/
theorem Reaches.metered_le {ok : S → O → Prop} {I : S → Prop} {Φ : S → ℕ}
    {D : O → Prop} [DecidablePred D] {c n : ℕ} {s₀ s : S} {H : List (O × R)}
    (h : (M.metered cost).Reaches (fun p o => ok p.1 o) (s₀, 0) H (s, n)) (h₀ : I s₀)
    (hstep : ∀ s o r s', I s → ok s o → M.step s o = .ok (r, s') →
      I s' ∧ cost s o + Φ s' ≤ Φ s + if D o then c else 0) :
    n + Φ s ≤ Φ s₀ + c * H.countP fun x => D x.1 := by
  refine (h.invariant (I := fun H p => I p.1 ∧
    p.2 + Φ p.1 ≤ Φ s₀ + c * H.countP fun x => D x.1) ⟨h₀, ?_⟩ ?_).2
  · exact Nat.le_of_eq (Nat.zero_add _)
  · rintro H ⟨s, n⟩ o r ⟨s', n'⟩ ⟨hI, hle⟩ ho hst
    obtain ⟨hst, rfl⟩ := metered_step.1 hst
    obtain ⟨hI', hcost⟩ := hstep s o r s' hI ho hst
    refine ⟨hI', ?_⟩
    dsimp only at *
    rw [List.countP_cons]
    by_cases hpaid : D o
    · simp only [hpaid, decide_true, ↓reduceIte, Nat.mul_succ] at hcost ⊢
      omega
    · simp only [hpaid, decide_false, Bool.false_eq_true, ↓reduceIte, Nat.add_zero] at hcost ⊢
      omega

end Machine

/-- If every activation that calls another one pays for itself by lowering the potential, the
budget of the last one covers the cost of all. -/
theorem Loop.Ends.sum_starts_le {L : Loop S E F} {cost Φ : S → ℕ} {c : ℕ} {s s' : S}
    {es : List E} (h : L.Ends s es s')
    (hbody : ∀ a e a', L.Entered s a → L.body a = .ok (e, a') →
      cost a + Φ a' ≤ Φ a + if L.again e then 0 else c) (n : ℕ) :
    ((L.starts n s).map cost).sum + Φ s' ≤ Φ s + c := by
  induction h generalizing n with
  | @last s s' e hb hno =>
    have hpaid := hbody s e s' (entered_self s) hb
    rw [hno, if_neg Bool.false_ne_true] at hpaid
    cases n with
    | zero =>
      simp only [starts, List.map_nil, List.sum_nil]
      omega
    | succ n =>
      simp only [starts, hb, hno, Bool.false_eq_true, ↓reduceIte, List.map_cons, List.map_nil,
        List.sum_cons, List.sum_nil]
      omega
  | @more s s₁ s' e es hb hag _ ih =>
    have hpaid := hbody s e s₁ (entered_self s) hb
    rw [if_pos hag, Nat.add_zero] at hpaid
    have hrest := ih fun a x a' ha => hbody a x a' (.head ⟨e, hb, hag⟩ ha)
    cases n with
    | zero =>
      have := hrest 0
      simp only [starts, List.map_nil, List.sum_nil] at this ⊢
      omega
    | succ n =>
      have := hrest n
      simp only [starts, hb, hag, ↓reduceIte, List.map_cons, List.sum_cons]
      omega

end CrankItUp
