import CrankItUp.Cache.Spec

/-!
# Calls, step by step

`Impl.Call` lists what a call of the public interface can do.  Side conditions on a run are
conditions on the calls it makes, and a call of `set` makes several: each of its activations
first lets the table grow, and then searches for one key, which it may delete.

* `Impl.EachActivation P` : every activation of `set` starts in a state that meets `P`.
* `Impl.EachSearch P`, `Impl.EachDeletion P` : every search for a key, and every deletion of
  one, by the user or inside `set`, is made in a state that meets `P`.
* `Impl.Call.induction` : what every effect on the cache preserves, every call preserves.
-/

namespace CrankItUp

namespace Impl

variable {ε : Type} [Evictor ε]

/-- The outcomes of a call. -/
inductive Call (s : Impl ε) : Op → Result → Impl ε → Prop
  | set {key : KeyType} {val : ValType} {size : UInt32} {es : List Exit} {s' : Impl ε} :
      s.set key val size = .ok (es, s') → Call s (.set key val size) (.set es) s'
  | get {key : KeyType} {n n' : UInt32} {v : ValType} {s' : Impl ε} :
      s.get key n = .ok (v, n', s') → Call s (.get key n) (.get v n') s'
  | del {key : KeyType} {b : Bool} {s' : Impl ε} :
      s.del key = .ok (b, s') → Call s (.del key) (.del b) s'
  | spaceUsed : Call s .spaceUsed (.spaceUsed s.spaceUsed) s
  | reset : Call s .reset .reset s.reset

theorem step_cases {s s' : Impl ε} {o : Op} {r : Result} (h : s.step o = .ok (r, s')) :
    s.Call o r s' := by
  cases o with
  | set key val size =>
    simp only [step, bind_eq_ok] at h
    obtain ⟨⟨es, s''⟩, hs, h⟩ := h
    cases h
    exact .set hs
  | get key n =>
    simp only [step, bind_eq_ok] at h
    obtain ⟨⟨v, n', s''⟩, hs, h⟩ := h
    cases h
    exact .get hs
  | del key =>
    simp only [step, bind_eq_ok] at h
    obtain ⟨⟨b, s''⟩, hs, h⟩ := h
    cases h
    exact .del hs
  | spaceUsed => cases h; exact .spaceUsed
  | reset => cases h; exact .reset

/-- The key that an activation of `set key _ size` searches for after its growth check, and may
delete: the key itself if the value fits, and otherwise the evictor's next key. -/
def target (g : Impl ε) (key : KeyType) (size : UInt32) : Option KeyType :=
  if g.Fits size then some key else g.evictor.map fun e => (Evictor.evict e).1

/-- Every activation of `set key _ size` in the call starts in a state with `P · key size`. -/
def EachActivation (P : Impl ε → KeyType → UInt32 → Prop) (s : Impl ε) : Op → Prop
  | .set key val size => ∀ a, (setLoop key val size).Entered s a → P a key size
  | _ => True

/-- Every key that the call deletes, if it is present, is deleted in a state with `P`. -/
def EachDeletion (P : Impl ε → KeyType → Prop) (s : Impl ε) : Op → Prop
  | .set key val size => ∀ a, (setLoop key val size).Entered s a →
      ∀ g, a.grow = .ok g → ∀ k ∈ g.target key size, P g k
  | .del key => P s key
  | _ => True

/-- Every key that the call searches for is searched for in a state with `P`. -/
def EachSearch (P : Impl ε → KeyType → Prop) (s : Impl ε) : Op → Prop
  | .get key _ => P s key
  | o => s.EachDeletion P o

/-! ### The conditions can be computed -/

section Decidable

variable {P : Impl ε → KeyType → UInt32 → Prop} {D : Impl ε → KeyType → Prop}

/-- The states in which the activations of a call of `set` start. -/
def activations (s : Impl ε) (key : KeyType) (val : ValType) (size : UInt32) : List (Impl ε) :=
  (setLoop key val size).starts (s.triples.length + 1) s

theorem entered_iff_mem_activations {s a : Impl ε} {key : KeyType} {val : ValType}
    {size : UInt32} : (setLoop key val size).Entered s a ↔ a ∈ s.activations key val size :=
  Loop.entered_iff_mem_starts (μ := fun a => a.triples.length)
    (fun _ _ => triples_length_of_calls) _ _ (Nat.lt_succ_self _)

instance [∀ a k n, Decidable (P a k n)] (s : Impl ε) (o : Op) :
    Decidable (s.EachActivation P o) :=
  match o with
  | .set key val size => decidable_of_iff (∀ a ∈ s.activations key val size, P a key size)
      (by simp only [EachActivation, entered_iff_mem_activations])
  | .get _ _ | .del _ | .spaceUsed | .reset => isTrue trivial

/-- `D` holds of the key that the activation that starts in `a` searches for. -/
def targetMeets (D : Impl ε → KeyType → Prop) [∀ a k, Decidable (D a k)] (a : Impl ε)
    (key : KeyType) (size : UInt32) : Bool :=
  match a.grow with
  | .error _ => true
  | .ok g => (g.target key size).all fun k => decide (D g k)

theorem targetMeets_iff [∀ a k, Decidable (D a k)] {a : Impl ε} {key : KeyType}
    {size : UInt32} : targetMeets D a key size = true ↔
      ∀ g, a.grow = .ok g → ∀ k ∈ g.target key size, D g k := by
  unfold targetMeets
  cases hg : a.grow with
  | error f => simp
  | ok g => simp [Option.all_eq_true]

instance [∀ a k, Decidable (D a k)] (s : Impl ε) (o : Op) : Decidable (s.EachDeletion D o) :=
  match o with
  | .set key val size =>
    decidable_of_iff (∀ a ∈ s.activations key val size, targetMeets D a key size = true)
      (by simp only [EachDeletion, entered_iff_mem_activations, targetMeets_iff])
  | .del key => inferInstanceAs (Decidable (D s key))
  | .get _ _ | .spaceUsed | .reset => isTrue trivial

instance [∀ a k, Decidable (D a k)] (s : Impl ε) (o : Op) : Decidable (s.EachSearch D o) :=
  match o with
  | .get key _ => inferInstanceAs (Decidable (D s key))
  | .set key val size => inferInstanceAs (Decidable (s.EachDeletion D (.set key val size)))
  | .del key => inferInstanceAs (Decidable (D s key))
  | .spaceUsed | .reset => isTrue trivial

end Decidable

/-! ### Induction -/

variable {P : Impl ε → Prop} {D : Impl ε → KeyType → Prop} {s s' : Impl ε}

theorem target_of_fits {g : Impl ε} {key : KeyType} {size : UInt32} (h : g.Fits size) :
    key ∈ g.target key size := by simp [target, h]

theorem target_of_not_fits {g : Impl ε} {key : KeyType} {size : UInt32} {e : ε}
    (h : ¬ g.Fits size) (he : g.evictor = some e) :
    (Evictor.evict e).1 ∈ g.target key size := by simp [target, h, he]

theorem touchKey_isSome (s : Impl ε) (key : KeyType) :
    (s.touchKey key).evictor.isSome = s.evictor.isSome := by
  simp [touchKey]

/-- **The induction rule for activations.**  A predicate that does not depend on what the
evictor knows and is preserved by growth, by insertion, and by deletion of the target is
preserved. -/
theorem Activation.induction {key : KeyType} {val : ValType} {size : UInt32} {e : Exit}
    (h : s.Activation key val size e s')
    (hevictor : ∀ a x, x.isSome = a.evictor.isSome → P a → P { a with evictor := x })
    (hgrow : ∀ g, s.grow = .ok g → P g)
    (hpush : ∀ g, s.grow = .ok g → P g → 0 < g.dict.length → g.Fits size →
      g.lookup key = none → P (g.push key val size))
    (hdel : ∀ g k t g', s.grow = .ok g → P g → k ∈ g.target key size → g.Deletes k t g' →
      P g') : P s' := by
  cases h with
  | stored hg hpos hfit hl =>
    exact hevictor _ _ (touchKey_isSome _ _) (hpush _ hg (hgrow _ hg) hpos hfit hl)
  | overwrites hg hfit hv hd =>
    exact hevictor _ _ (touchKey_isSome _ _)
      (hdel _ _ _ _ hg (hgrow _ hg) (target_of_fits hfit) hd)
  | evicts hg hfit he hd =>
    refine hevictor _ _ ?_ (hdel _ _ _ _ hg (hgrow _ hg) (target_of_not_fits hfit he) hd)
    rw [hd.frame.2.1, he]
    rfl
  | misses hg hfit he hl =>
    refine hevictor _ _ ?_ (hgrow _ hg)
    rw [he]
    rfl
  | refused hg hfit he => exact hgrow _ hg

/-- **The induction rule for calls.**  A predicate that does not depend on what the evictor
knows, holds after a reset, and is preserved by growth, by insertion, and by deletion in states
with `D`, is preserved by every call that deletes in such states. -/
theorem Call.induction {o : Op} {r : Result} (h : s.Call o r s') (h₀ : P s)
    (hD : s.EachDeletion D o)
    (hevictor : ∀ a x, x.isSome = a.evictor.isSome → P a → P { a with evictor := x })
    (hgrow : ∀ key val size a g, o = .set key val size → (setLoop key val size).Entered s a →
      P a → a.grow = .ok g → P g)
    (hpush : ∀ key val size a g, o = .set key val size → (setLoop key val size).Entered s a →
      a.grow = .ok g → P g → 0 < g.dict.length → g.Fits size → g.lookup key = none →
      P (g.push key val size))
    (hdel : ∀ g k t g', P g → D g k → g.Deletes k t g' → P g')
    (hreset : o = .reset → P s.reset) : P s' := by
  cases h with
  | set hs =>
    refine (set_ends hs).invariant h₀ fun a e a' ha _ hPa hb => ?_
    exact (setBody_cases hb).induction hevictor
      (fun g hg => hgrow _ _ _ a g rfl ha hPa hg)
      (fun g hg hPg => hpush _ _ _ a g rfl ha hg hPg)
      (fun g k t g' hg hPg hk hd => hdel g k t g' hPg (hD a ha g hg k hk) hd)
  | get hs =>
    obtain ⟨-, ⟨-, -, -, rfl⟩ | ⟨t, w, -, -, -, -, rfl⟩⟩ := get_cases hs
    exacts [h₀, hevictor _ _ (touchKey_isSome s _) h₀]
  | del hs =>
    obtain ⟨-, ⟨-, rfl, -⟩ | ⟨-, t, hd⟩⟩ := del_cases hs
    exacts [h₀, hdel _ _ _ _ h₀ hD hd]
  | spaceUsed => exact h₀
  | reset => exact hreset rfl

theorem eachDeletion_true (s : Impl ε) (o : Op) : s.EachDeletion (fun _ _ => True) o := by
  cases o <;> simp [EachDeletion]

theorem Call.evictor_isSome {o : Op} {r : Result} (h : s.Call o r s') :
    s'.evictor.isSome = s.evictor.isSome :=
  h.induction (P := fun a => a.evictor.isSome = s.evictor.isSome) rfl (eachDeletion_true s o)
    (fun _ _ hx h => hx.trans h) (fun _ _ _ _ _ _ _ h hg => by rw [grow_evictor hg, h])
    (fun _ _ _ _ _ _ _ _ h _ _ _ => h) (fun _ _ _ _ h _ hd => by rw [hd.frame.2.1, h])
    (fun _ => rfl)

theorem Call.evictor_eq_none {o : Op} {r : Result} (h : s.Call o r s') (he : s.evictor = none) :
    s'.evictor = none := by
  rw [← Option.isNone_iff_eq_none, ← Option.not_isSome, h.evictor_isSome, he]
  rfl

theorem Call.maxmem_eq {o : Op} {r : Result} (h : s.Call o r s') : s'.maxmem = s.maxmem :=
  h.induction (P := fun a => a.maxmem = s.maxmem) rfl (eachDeletion_true s o)
    (fun _ _ _ h => h) (fun _ _ _ _ _ _ _ h hg => (grow_maxmem hg).trans h)
    (fun _ _ _ _ _ _ _ _ h _ _ _ => h) (fun _ _ _ _ h _ hd => hd.frame.1.trans h)
    (fun _ => rfl)

end Impl

/-! ### Small caches, to try the theorems on -/

/-- A hash function that sends a key to its first byte. -/
def firstByte (key : KeyType) : UInt64 := (key.headD 0).toUInt64

/-- The value for a string literal. -/
def text (s : String) : ValType := some (CStr.ofBytes (str s))

/-- A new cache with the default load factor 0.75. -/
def small {ε : Type} (maxmem : UInt32) (evictor : Option ε) : Impl ε :=
  .new maxmem (.finite 3 2) evictor (some firstByte)

end CrankItUp
