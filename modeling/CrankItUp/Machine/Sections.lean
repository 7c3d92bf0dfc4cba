import CrankItUp.Machine.Basic
import Mathlib.Data.Set.Basic
import Mathlib.Logic.Function.Basic

/-!
# Sections of several threads

Threads work on a shared state in *sections*: a section begins with a call, makes small steps on
the shared state and on a local one, and ends with a result.  The steps of different threads
interleave.  The shared state has parts, and every step uses some parts and writes to some.

## Main definitions

* `Parts S φ` : the parts `φ` of a state.
* `Code` : how a section proceeds, and which parts its steps use.
* `Code.Solo` : the beginning of a section that is not interleaved with others, with the parts that
  it has used and written.
* `Code.Implements c M` : a section that is not interleaved is a call of the machine `M`.
* `Code.Exec` : an interleaved run.  Its history are the sections that have ended, the most recent
  first.
* `Code.NoRace` : no section has written to a part that another unfinished one has used.
* `Code.implements_of_run` : a section that, run to its end, does what the machine does.
* `Code.Exec.compatible` : a lock keeps sections apart whose calls conflict.
* `Code.Exec.serializable` : **without races, an interleaved run is a run of the machine**, with the
  sections in the order in which they end.
-/

namespace CrankItUp

/-- A state is determined by its parts. -/
class Parts (S : Type*) (φ : outParam Type*) where
  same : φ → Setoid S
  ext : ∀ {s t : S}, (∀ f, same f s t) → s = t

/-- Two states have the same part `f`. -/
def Same {S φ : Type*} [Parts S φ] (f : φ) (s t : S) : Prop := Parts.same f s t

section Same

variable {S φ : Type*} [Parts S φ] {f : φ} {s t u : S}

theorem Same.refl (f : φ) (s : S) : Same f s s := (Parts.same f).refl s

theorem Same.symm (h : Same f s t) : Same f t s := (Parts.same f).symm h

theorem Same.trans (h : Same f s t) (h' : Same f t u) : Same f s u := (Parts.same f).trans h h'

end Same

/-- How sections proceed: `step` until `finish` gives the result. -/
structure Code (S L O R F φ : Type*) [Parts S φ] where
  start : O → L
  step : S → L → Except F (L × S)
  finish : L → Option R
  uses : L → Set φ
  writes : L → Set φ
  writes_subset : ∀ l, writes l ⊆ uses l
  /-- A step leaves the parts that it does not write to. -/
  frame : ∀ {s l l' s'}, step s l = .ok (l', s') → ∀ f ∉ writes l, Same f s' s
  /-- A step depends on the parts that it uses. -/
  depends : ∀ {s t l}, (∀ f ∈ uses l, Same f s t) →
    Agree (fun s' t' => ∀ f ∈ writes l, Same f s' t') (step s l) (step t l)

/-- An unfinished section. -/
structure Flight (L O φ : Type*) where
  call : O
  loc : L
  used : Set φ
  written : Set φ

/-- The shared state, and the sections of the threads. -/
structure Conc (ι S L O φ : Type*) where
  shared : S
  flight : ι → Option (Flight L O φ)

/-- No thread has begun a section. -/
def Conc.idle {ι S L O φ : Type*} (s₀ : S) : Conc ι S L O φ := ⟨s₀, fun _ => none⟩

/-- The thread `i` has left the shared state `s`, and has the section `x` now. -/
def Conc.put {ι S L O φ : Type*} [DecidableEq ι] (st : Conc ι S L O φ) (s : S) (i : ι)
    (x : Option (Flight L O φ)) : Conc ι S L O φ :=
  ⟨s, Function.update st.flight i x⟩

theorem Conc.flight_put {ι S L O φ : Type*} [DecidableEq ι] {st : Conc ι S L O φ} {s : S} {i j : ι}
    {x : Option (Flight L O φ)} {fl : Flight L O φ} :
    (st.put s i x).flight j = some fl ↔ j = i ∧ x = some fl ∨ j ≠ i ∧ st.flight j = some fl := by
  by_cases hij : j = i
  · subst hij
    simp [put]
  · simp [put, hij]

namespace Code

variable {ι S L O R F φ : Type*} [Parts S φ] (c : Code S L O R F φ)

/-- A section that has just begun. -/
def begin (o : O) : Flight L O φ := ⟨o, c.start o, ∅, ∅⟩

/-- The section after a step to `l`. -/
def proceed (fl : Flight L O φ) (l : L) : Flight L O φ :=
  ⟨fl.call, l, fl.used ∪ c.uses fl.loc, fl.written ∪ c.writes fl.loc⟩

/-- A section that begins in `s₀` and that nothing interferes with. -/
inductive Solo (s₀ : S) : Flight L O φ → S → Prop
  | begin (o : O) : Solo s₀ (c.begin o) s₀
  | step {fl : Flight L O φ} {s s' : S} {l : L} : Solo s₀ fl s → c.finish fl.loc = none →
      c.step s fl.loc = .ok (l, s') → Solo s₀ (c.proceed fl l) s'

/-- Run a section that nothing interferes with for at most `n` steps; `none` if it has not ended
by then. -/
def run : ℕ → S → L → Option (Except F (R × S))
  | 0, s, l => (c.finish l).map fun r => .ok (r, s)
  | n + 1, s, l =>
    match c.finish l with
    | some r => some (.ok (r, s))
    | none =>
      match c.step s l with
      | .ok (l, s) => run n s l
      | .error f => some (.error f)

/-- Sections that nothing interferes with are the calls of a machine. -/
structure Implements (M : Machine S O R F) : Prop where
  ok : ∀ {s₀ fl s r}, c.Solo s₀ fl s → c.finish fl.loc = some r → M.step s₀ fl.call = .ok (r, s)
  error : ∀ {s₀ fl s f}, c.Solo s₀ fl s → c.finish fl.loc = none → c.step s fl.loc = .error f →
    M.step s₀ fl.call = .error f

section Exec

variable [DecidableEq ι]

/-- What a thread may do next; `free` tells when a section may begin. -/
inductive Step (free : (ι → Option (Flight L O φ)) → O → Prop) :
    Conc ι S L O φ → Option (ι × O × R) → Conc ι S L O φ → Prop
  | enter {st : Conc ι S L O φ} {i : ι} {o : O} : st.flight i = none → free st.flight o →
      Step free st none (st.put st.shared i (some (c.begin o)))
  | work {st : Conc ι S L O φ} {i : ι} {fl : Flight L O φ} {l : L} {s : S} :
      st.flight i = some fl → c.finish fl.loc = none → c.step st.shared fl.loc = .ok (l, s) →
      Step free st none (st.put s i (some (c.proceed fl l)))
  | leave {st : Conc ι S L O φ} {i : ι} {fl : Flight L O φ} {r : R} :
      st.flight i = some fl → c.finish fl.loc = some r →
      Step free st (some (i, fl.call, r)) (st.put st.shared i none)

/-- An interleaved run from `s₀`, all of whose states meet `ok`. -/
inductive Exec (free : (ι → Option (Flight L O φ)) → O → Prop) (ok : Conc ι S L O φ → Prop)
    (s₀ : S) : List (ι × O × R) → Conc ι S L O φ → Prop
  | start : Exec free ok s₀ [] (.idle s₀)
  | step {H : List (ι × O × R)} {st st' : Conc ι S L O φ} {e : Option (ι × O × R)} :
      Exec free ok s₀ H st → c.Step free st e st' → ok st' → Exec free ok s₀ (e.toList ++ H) st'

end Exec

/-- The sections of two threads whose calls conflict are not unfinished at the same time: a
section begins only if its call does not conflict with an unfinished one. -/
def Excludes (conflict : O → O → Prop) (flight : ι → Option (Flight L O φ)) (o : O) : Prop :=
  ∀ i fl, flight i = some fl → ¬ conflict fl.call o

/-- No section has written to a part that another one has used. -/
def NoRace (st : Conc ι S L O φ) : Prop :=
  ∀ i j fl fl', i ≠ j → st.flight i = some fl → st.flight j = some fl' →
    ∀ f ∈ fl.written, f ∉ fl'.used

omit [Parts S φ] in
theorem noRace_idle (s₀ : S) : NoRace (.idle s₀ : Conc ι S L O φ) :=
  fun _ _ _ _ _ h => by cases h

variable {c} {s₀ t₀ s t : S} {fl fl' : Flight L O φ} {f : φ} {M : Machine S O R F}

/-! ### Sections on their own -/

namespace Solo

theorem written_subset (h : c.Solo s₀ fl s) : fl.written ⊆ fl.used := by
  induction h with
  | begin o => exact subset_rfl
  | @step fl _ _ _ _ _ _ ih => exact Set.union_subset_union ih (c.writes_subset fl.loc)

theorem frame (h : c.Solo s₀ fl s) (hf : f ∉ fl.written) : Same f s s₀ := by
  induction h with
  | begin o => exact Same.refl f s₀
  | @step fl _ _ _ _ _ hst ih =>
    have hnot : f ∉ fl.written ∧ f ∉ c.writes fl.loc := by
      simpa only [proceed, Set.mem_union, not_or] using hf
    exact (c.frame hst f hnot.2).trans (ih hnot.1)

/-- A section does the same from every state with the same parts, as far as it uses them. -/
theorem transfer (h : c.Solo s₀ fl s) (hsame : ∀ f ∈ fl.used, Same f s₀ t₀) :
    ∃ t, c.Solo t₀ fl t ∧ ∀ f ∈ fl.used, Same f s t := by
  induction h with
  | begin o => exact ⟨t₀, .begin o, hsame⟩
  | @step fl s s' l hs hno hst ih =>
    obtain ⟨t, ht, hst'⟩ := ih fun f hf => hsame f (.inl hf)
    -- the parts that are used for the first time have not been written yet
    have hboth : ∀ f ∈ fl.used ∪ c.uses fl.loc, Same f s t := by
      intro f hf
      by_cases hold : f ∈ fl.used
      · exact hst' f hold
      · have hs' := hs.frame fun hw => hold (hs.written_subset hw)
        have ht' := ht.frame fun hw => hold (ht.written_subset hw)
        exact (hs'.trans (hsame f hf)).trans ht'.symm
    obtain ⟨e, he, -⟩ | ⟨l', s'', t', hok, hok', hw⟩ :=
      agree_iff.1 (c.depends fun f hf => hboth f (.inr hf))
    · cases hst.symm.trans he
    · cases hst.symm.trans hok
      refine ⟨t', .step ht hno hok', fun f hf => ?_⟩
      by_cases hfw : f ∈ c.writes fl.loc
      · exact hw f hfw
      · exact ((c.frame hst f hfw).trans (hboth f hf)).trans (c.frame hok' f hfw).symm

end Solo

theorem run_step {n : ℕ} {l l' : L} {s' : S} (hno : c.finish l = none)
    (hst : c.step s l = .ok (l', s')) : c.run (n + 1) s l = c.run n s' l' := by
  rw [run, hno, hst]

theorem run_error {n : ℕ} {l : L} {e : F} (hno : c.finish l = none)
    (hst : c.step s l = .error e) : c.run (n + 1) s l = some (.error e) := by
  rw [run, hno, hst]

theorem run_finish {n : ℕ} {l : L} {r : R} (hfin : c.finish l = some r) :
    c.run n s l = some (.ok (r, s)) := by
  cases n <;> simp [run, hfin]

theorem Solo.run_eq (h : c.Solo s₀ fl s) {x : Except F (R × S)} {n : ℕ}
    (hrun : c.run n s₀ (c.start fl.call) = some x) : ∃ m, c.run m s fl.loc = some x := by
  induction h with
  | begin o => exact ⟨n, hrun⟩
  | @step fl s s' l _ hno hst ih =>
    obtain ⟨m, hm⟩ := ih hrun
    cases m with
    | zero => simp [run, hno] at hm
    | succ m => exact ⟨m, run_step hno hst ▸ hm⟩

/-- If every section that is run to its end does what the machine does, then the code implements
the machine. -/
theorem implements_of_run
    (h : ∀ s o, ∃ n, c.run n s (c.start o) = some (M.step s o)) : c.Implements M := by
  constructor
  · intro s₀ fl s r hs hfin
    obtain ⟨n, hn⟩ := h s₀ fl.call
    obtain ⟨m, hm⟩ := hs.run_eq hn
    exact (Option.some.inj ((run_finish hfin).symm.trans hm)).symm
  · intro s₀ fl s f hs hno hst
    obtain ⟨n, hn⟩ := h s₀ fl.call
    obtain ⟨m, hm⟩ := hs.run_eq hn
    cases m with
    | zero => simp [run, hno] at hm
    | succ m => exact (Option.some.inj ((run_error hno hst).symm.trans hm)).symm

/-! ### Runs without races -/

/-- How an interleaved state comes from the state `σ` that the finished sections have left: every
unfinished section has done what it would have done in `σ` on its own. -/
structure Linked (c : Code S L O R F φ) (σ : S) (st : Conc ι S L O φ) : Prop where
  solo : ∀ i fl, st.flight i = some fl → ∃ s, c.Solo σ fl s ∧ ∀ f ∈ fl.used, Same f st.shared s
  outside : ∀ f, (∀ i fl, st.flight i = some fl → f ∉ fl.written) → Same f st.shared σ

namespace Linked

variable {σ : S} {st : Conc ι S L O φ} {i : ι}

theorem same_uses (h : c.Linked σ st) (hi : st.flight i = some fl) (hs : c.Solo σ fl s)
    (hsame : ∀ f ∈ fl.used, Same f st.shared s)
    (hrace : ∀ j fl', i ≠ j → st.flight j = some fl' → ∀ f ∈ c.uses fl.loc, f ∉ fl'.written) :
    ∀ f ∈ fl.used ∪ c.uses fl.loc, Same f st.shared s := by
  intro f hf
  by_cases hold : f ∈ fl.used
  · exact hsame f hold
  · have hnot : f ∉ fl.written := fun hw => hold (hs.written_subset hw)
    refine (h.outside f fun j fl' hj => ?_).trans (hs.frame hnot).symm
    by_cases hij : i = j
    · subst hij
      cases hi.symm.trans hj
      exact hnot
    · exact hrace j fl' hij hj f (hf.resolve_left hold)

theorem eq_of_idle (h : c.Linked σ st) (hidle : ∀ i, st.flight i = none) :
    st.shared = σ :=
  Parts.ext fun f => h.outside f fun i fl hi => by cases (hidle i).symm.trans hi

theorem error (h : c.Linked σ st) (hc : c.Implements M)
    (hi : st.flight i = some fl) (hno : c.finish fl.loc = none) {e : F}
    (hst : c.step st.shared fl.loc = .error e)
    (hrace : ∀ j fl', i ≠ j → st.flight j = some fl' → ∀ f ∈ c.uses fl.loc, f ∉ fl'.written) :
    M.step σ fl.call = .error e := by
  obtain ⟨s, hs, hsame⟩ := h.solo i fl hi
  have huses := h.same_uses hi hs hsame hrace
  obtain ⟨e', he, he'⟩ | ⟨_, _, _, hok, -⟩ :=
    agree_iff.1 (c.depends fun f hf => huses f (.inr hf))
  · cases hst.symm.trans he
    exact hc.error hs hno he'
  · cases hst.symm.trans hok

variable [DecidableEq ι]

theorem enter (h : c.Linked σ st) (hi : st.flight i = none) (o : O) :
    c.Linked σ (st.put st.shared i (some (c.begin o))) := by
  refine ⟨fun j fl hj => ?_, fun f hf => h.outside f fun j fl hj => ?_⟩
  · obtain ⟨rfl, hfl⟩ | ⟨-, hj⟩ := Conc.flight_put.1 hj
    · cases hfl
      exact ⟨σ, .begin o, fun f hf => absurd hf (Set.notMem_empty f)⟩
    · exact h.solo j fl hj
  · have hij : j ≠ i := by
      rintro rfl
      cases hi.symm.trans hj
    exact hf j fl (Conc.flight_put.2 (.inr ⟨hij, hj⟩))

theorem work (h : c.Linked σ st) (hi : st.flight i = some fl) (hno : c.finish fl.loc = none)
    {l : L} {s' : S} (hst : c.step st.shared fl.loc = .ok (l, s'))
    (hrace : NoRace (st.put s' i (some (c.proceed fl l)))) :
    c.Linked σ (st.put s' i (some (c.proceed fl l))) := by
  have hself : (st.put s' i (some (c.proceed fl l))).flight i = some (c.proceed fl l) :=
    Conc.flight_put.2 (.inl ⟨rfl, rfl⟩)
  have hother : ∀ {j fl'}, j ≠ i → st.flight j = some fl' →
      (st.put s' i (some (c.proceed fl l))).flight j = some fl' :=
    fun hij hj => Conc.flight_put.2 (.inr ⟨hij, hj⟩)
  obtain ⟨s, hs, hsame⟩ := h.solo i fl hi
  have huses := h.same_uses hi hs hsame fun j fl' hij hj f hf hw =>
    hrace j i fl' _ hij.symm (hother hij.symm hj) hself f hw (.inr hf)
  -- on its own the section makes the same step
  obtain ⟨e, he, -⟩ | ⟨l', s'', t', hok, hok', hw⟩ :=
    agree_iff.1 (c.depends fun f hf => huses f (.inr hf))
  · cases hst.symm.trans he
  cases hst.symm.trans hok
  refine ⟨fun j fl' hj => ?_, fun f hf => ?_⟩
  · obtain ⟨rfl, hfl⟩ | ⟨hij, hj⟩ := Conc.flight_put.1 hj
    · cases hfl
      refine ⟨t', .step hs hno hok', fun f hf => ?_⟩
      by_cases hfw : f ∈ c.writes fl.loc
      · exact hw f hfw
      · exact ((c.frame hst f hfw).trans (huses f hf)).trans (c.frame hok' f hfw).symm
    · obtain ⟨t, ht, htsame⟩ := h.solo j fl' hj
      refine ⟨t, ht, fun f hf => ?_⟩
      have hnot : f ∉ c.writes fl.loc := fun hfw =>
        hrace i j _ fl' (Ne.symm hij) hself (hother hij hj) f (.inr hfw) hf
      exact (c.frame hst f hnot).trans (htsame f hf)
  · have hnot : f ∉ fl.written ∧ f ∉ c.writes fl.loc := by
      simpa only [proceed, Set.mem_union, not_or] using hf i _ hself
    refine (c.frame hst f hnot.2).trans (h.outside f fun j fl' hj => ?_)
    by_cases hij : j = i
    · subst hij
      cases hi.symm.trans hj
      exact hnot.1
    · exact hf j fl' (hother hij hj)

/-- The end of a section: it becomes a call of the machine. -/
theorem leave (h : c.Linked σ st) (hrace : NoRace st) (hc : c.Implements M)
    (hi : st.flight i = some fl) {r : R} (hfin : c.finish fl.loc = some r) :
    ∃ σ', M.step σ fl.call = .ok (r, σ') ∧ c.Linked σ' (st.put st.shared i none) := by
  obtain ⟨s, hs, hsame⟩ := h.solo i fl hi
  refine ⟨s, hc.ok hs hfin, fun j fl' hj => ?_, fun f hf => ?_⟩
  · obtain ⟨-, hfl⟩ | ⟨hij, hj⟩ := Conc.flight_put.1 hj
    · cases hfl
    · -- the section that ends has not written what the other one uses
      obtain ⟨t, ht, htsame⟩ := h.solo j fl' hj
      have hframe : ∀ f ∈ fl'.used, Same f σ s := fun f hf =>
        (hs.frame fun hw => hrace i j fl fl' (Ne.symm hij) hi hj f hw hf).symm
      obtain ⟨t', ht', hsame'⟩ := ht.transfer hframe
      exact ⟨t', ht', fun f hf => (htsame f hf).trans (hsame' f hf)⟩
  · by_cases hw : f ∈ fl.written
    · exact hsame f (hs.written_subset hw)
    · refine (h.outside f fun j fl' hj => ?_).trans (hs.frame hw).symm
      by_cases hij : j = i
      · subst hij
        cases hi.symm.trans hj
        exact hw
      · exact hf j fl' (Conc.flight_put.2 (.inr ⟨hij, hj⟩))

end Linked

section Exec

variable [DecidableEq ι] {free : (ι → Option (Flight L O φ)) → O → Prop}
  {ok : Conc ι S L O φ → Prop} {H : List (ι × O × R)} {st : Conc ι S L O φ}

theorem Exec.enter (h : c.Exec free ok s₀ H st) (i : ι) (o : O) (hi : st.flight i = none)
    (hfree : free st.flight o) (hok : ok (st.put st.shared i (some (c.begin o)))) :
    c.Exec free ok s₀ H (st.put st.shared i (some (c.begin o))) :=
  h.step (.enter hi hfree) hok

theorem Exec.work (h : c.Exec free ok s₀ H st) (i : ι) {l : L} (hi : st.flight i = some fl)
    (hno : c.finish fl.loc = none) (hst : c.step st.shared fl.loc = .ok (l, s))
    (hok : ok (st.put s i (some (c.proceed fl l)))) :
    c.Exec free ok s₀ H (st.put s i (some (c.proceed fl l))) :=
  h.step (.work hi hno hst) hok

theorem Exec.leave (h : c.Exec free ok s₀ H st) (i : ι) {r : R} (hi : st.flight i = some fl)
    (hfin : c.finish fl.loc = some r) (hok : ok (st.put st.shared i none)) :
    c.Exec free ok s₀ ((i, fl.call, r) :: H) (st.put st.shared i none) :=
  h.step (.leave hi hfin) hok

theorem Exec.meets (h : c.Exec free ok s₀ H st) (h₀ : ok (.idle s₀)) : ok st := by
  cases h with
  | start => exact h₀
  | step _ _ hok => exact hok

theorem Exec.invariant {I : Conc ι S L O φ → Prop} (h : c.Exec free ok s₀ H st)
    (h₀ : I (.idle s₀)) (hstep : ∀ st st' e, I st → c.Step free st e st' → I st') : I st := by
  induction h with
  | start => exact h₀
  | step _ hst _ ih => exact hstep _ _ _ ih hst

theorem Exec.imp {ok' : Conc ι S L O φ → Prop} (h : c.Exec free ok s₀ H st)
    (himp : ∀ {H st}, c.Exec free ok s₀ H st → ok st → ok' st) : c.Exec free ok' s₀ H st := by
  induction h with
  | start => exact .start
  | step h hst hok ih => exact .step ih hst (himp (.step h hst hok) hok)

/-- What holds of a section when it begins, and is preserved by its steps, holds of every
unfinished section. -/
theorem Exec.flight_invariant {P : Flight L O φ → Prop} (h : c.Exec free ok s₀ H st)
    (hbegin : ∀ o, P (c.begin o))
    (hstep : ∀ fl s l s', P fl → c.step s fl.loc = .ok (l, s') → P (c.proceed fl l))
    {i : ι} (hi : st.flight i = some fl) : P fl := by
  refine h.invariant (I := fun st => ∀ i fl, st.flight i = some fl → P fl)
    (fun i fl hi => by cases hi) (fun st st' e hI hst j fl' hj => ?_) i fl hi
  cases hst with
  | enter | leave =>
    obtain ⟨-, hfl⟩ | ⟨-, hj⟩ := Conc.flight_put.1 hj
    · cases hfl <;> exact hbegin _
    · exact hI j fl' hj
  | @work i fl l s hi hno hst =>
    obtain ⟨-, hfl⟩ | ⟨-, hj⟩ := Conc.flight_put.1 hj
    · cases hfl
      exact hstep fl _ l s (hI i fl hi) hst
    · exact hI j fl' hj

theorem Step.cases_flight {st' : Conc ι S L O φ} {e : Option (ι × O × R)} {j : ι}
    (h : c.Step free st e st') (hj : st'.flight j = some fl) :
    (∃ fl', st.flight j = some fl' ∧ fl'.call = fl.call) ∨
      st.flight j = none ∧ free st.flight fl.call ∧ ∀ k ≠ j, st'.flight k = st.flight k := by
  cases h with
  | enter hi hfree =>
    obtain ⟨rfl, hfl⟩ | ⟨-, hj⟩ := Conc.flight_put.1 hj
    · cases hfl
      exact .inr ⟨hi, hfree, fun k hk => Function.update_of_ne hk _ _⟩
    · exact .inl ⟨fl, hj, rfl⟩
  | work hi =>
    obtain ⟨rfl, hfl⟩ | ⟨-, hj⟩ := Conc.flight_put.1 hj
    · cases hfl
      exact .inl ⟨_, hi, rfl⟩
    · exact .inl ⟨fl, hj, rfl⟩
  | leave hi =>
    obtain ⟨-, hfl⟩ | ⟨-, hj⟩ := Conc.flight_put.1 hj
    · cases hfl
    · exact .inl ⟨fl, hj, rfl⟩

theorem Exec.compatible {conflict : O → O → Prop} (h : c.Exec (Excludes conflict) ok s₀ H st)
    (hsymm : ∀ o o', conflict o o' → conflict o' o) {i j : ι} (hij : i ≠ j)
    (hi : st.flight i = some fl) (hj : st.flight j = some fl') :
    ¬ conflict fl.call fl'.call := by
  refine h.invariant (I := fun st => ∀ i j fl fl', i ≠ j → st.flight i = some fl →
    st.flight j = some fl' → ¬ conflict fl.call fl'.call) (fun i j fl fl' _ hi => by cases hi)
    (fun st st' e hI hst i j fl fl' hij hi hj => ?_) i j fl fl' hij hi hj
  obtain ⟨gl, hgl, hcall⟩ | ⟨hnone, hfree, hsame⟩ := hst.cases_flight hi <;>
    obtain ⟨gl', hgl', hcall'⟩ | ⟨hnone', hfree', hsame'⟩ := hst.cases_flight hj
  · rw [← hcall, ← hcall']
    exact hI i j gl gl' hij hgl hgl'
  · exact hfree' i fl ((hsame' i hij).symm.trans hi)
  · exact fun hc => hfree j fl' ((hsame j hij.symm).symm.trans hj) (hsymm _ _ hc)
  · -- only one section begins
    cases (hnone'.symm.trans (hsame j hij.symm).symm).trans hj

/-- **Without races, an interleaved run is a run of the machine**: its calls are the sections in
the order in which they have ended, with the same results. -/
theorem Exec.serializable (h : c.Exec free NoRace s₀ H st) (hc : c.Implements M) :
    ∃ σ, M.Reaches (fun _ _ => True) s₀ (H.map Prod.snd) σ ∧ c.Linked σ st ∧ NoRace st := by
  induction h with
  | start =>
    refine ⟨s₀, .start, ⟨fun i fl hi => ?_, fun f _ => Same.refl f s₀⟩, noRace_idle s₀⟩
    cases hi
  | @step H st st' e _ hst hok ih =>
    obtain ⟨σ, hσ, hlinked, hrace⟩ := ih
    cases hst with
    | enter hi => exact ⟨σ, hσ, hlinked.enter hi _, hok⟩
    | work hi hno hst => exact ⟨σ, hσ, hlinked.work hi hno hst hok, hok⟩
    | leave hi hfin =>
      obtain ⟨σ', hcall, hlinked'⟩ := hlinked.leave hrace hc hi hfin
      exact ⟨σ', .call hσ trivial hcall, hlinked', hok⟩

end Exec

end Code

end CrankItUp
