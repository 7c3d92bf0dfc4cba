import CrankItUp.Cache.Guard
import CrankItUp.Machine.Ghost

/-!
# Stored triples and placeholders

`reset` leaves a default triple in every bucket, a placeholder, and `del` may delete it later.
To say which triples of the table have been stored by a `set`, the number of placeholders that
are left is carried along as a ghost.

* `Impl.Ghost` : the number of placeholders, and the largest number of stored triples so far.
* `Impl.stored s n`, `Impl.storedAt s n k` : how many triples of the table have been stored, if `n`
  are placeholders; and how many with the key `k`.
* `tracked` : the library cache with this ghost.  `tracked_carries` and `reaches_iff_tracked` say
  that it is the cache.
* `Impl.TrackedCall` : what a call does to the cache and its ghost.
-/

namespace CrankItUp

namespace Impl

variable {ε : Type} (s : Impl ε)

/-- What a state does not tell about the run that has led to it. -/
structure Ghost where
  placeholders : ℕ
  peak : ℕ
  deriving DecidableEq

/-- The number of default triples in the table. -/
def defaults : ℕ := s.triples.count Triple.default

/-- The number of placeholders after a step from `s` to `s'`, of `n` before.  A default triple that
is deleted is taken for a placeholder as long as there are any. -/
def spend (s s' : Impl ε) (n : ℕ) : ℕ := n - (s.defaults - s'.defaults)

/-- The number of triples that have been stored, if `n` are placeholders. -/
def stored (n : ℕ) : ℕ := s.triples.length - n

/-- The number of triples with the key that have been stored, if `n` are placeholders. -/
def storedAt (n : ℕ) (key : KeyType) : ℕ :=
  (s.triples.countP fun t => t.key = key) - if key = [] then n else 0

variable {s} {s' g : Impl ε} {key k : KeyType} {val : ValType} {size : UInt32} {t : Triple} {n : ℕ}

/-! ### Default triples -/

theorem defaults_eq_of_perm (h : s.triples.Perm s'.triples) : s.defaults = s'.defaults :=
  h.count_eq _

theorem Deletes.defaults_eq (h : s.Deletes key t s') :
    s.defaults = s'.defaults + if t = Triple.default then 1 else 0 := by
  rw [defaults, h.triples_perm.count_eq, List.count_cons]
  simp only [beq_iff_eq]
  rfl

theorem Deletes.defaults_of_ne (h : s.Deletes key t s') (ht : t ≠ Triple.default) :
    s.defaults = s'.defaults := by
  rw [h.defaults_eq, if_neg ht, Nat.add_zero]

theorem spend_of_le (h : s.defaults ≤ s'.defaults) : spend s s' n = n := by
  rw [spend, Nat.sub_eq_zero_of_le h, Nat.sub_zero]

theorem Deletes.spend_eq (h : s.Deletes key t s') :
    spend s s' n = n - if t = Triple.default then 1 else 0 := by
  rw [spend, h.defaults_eq, Nat.add_sub_cancel_left]

theorem defaults_le_push (hpos : 0 < s.dict.length) :
    s.defaults ≤ (s.push key val size).defaults := by
  rw [defaults, defaults, (push_triples_perm hpos).count_eq]
  exact List.count_le_count_cons

theorem reset_triples : s.reset.triples = List.replicate s.dict.length Triple.default := by
  refine List.eq_replicate_iff.2 ⟨?_, fun t ht => mem_reset_triples ht⟩
  simp [triples, reset]

theorem reset_defaults : s.reset.defaults = s.dict.length := by
  rw [defaults, reset_triples, List.count_replicate_self]

section Evictor

variable [Evictor ε] {e : Exit}

/-- An activation deletes no placeholder unless it finds a default triple. -/
theorem Activation.spend_eq (h : s.Activation key val size e s') (n : ℕ) :
    spend s s' n = n ∨ ∃ g, s.grow = .ok g ∧ ∃ k ∈ g.target key size,
      g.lookup k = some Triple.default := by
  have hsame : ∀ g, s.grow = .ok g → s.defaults = g.defaults := fun g hg =>
    defaults_eq_of_perm (grow_frame hg).2.symm
  cases h with
  | stored hg hpos _ _ =>
    exact .inl (spend_of_le (hsame _ hg ▸ defaults_le_push hpos))
  | @overwrites g g' t w hg _ hw hd =>
    refine .inl (spend_of_le (Nat.le_of_eq ((hsame _ hg).trans (hd.defaults_of_ne ?_))))
    rintro rfl
    cases hw
  | @evicts g g' e t hg hfit he hd =>
    by_cases ht : t = Triple.default
    · exact .inr ⟨g, hg, _, target_of_not_fits hfit he, ht ▸ hd.lookup_eq⟩
    · exact .inl (spend_of_le (Nat.le_of_eq ((hsame _ hg).trans (hd.defaults_of_ne ht))))
  | @misses g e hg => exact .inl (spend_of_le (Nat.le_of_eq (hsame g hg)))
  | refused hg => exact .inl (spend_of_le (Nat.le_of_eq (hsame _ hg)))

/-! ### The cache with its ghost -/

/-- The recursion of `set` with the number of placeholders. -/
def trackedLoop (key : KeyType) (val : ValType) (size : UInt32) : Loop (Impl ε × ℕ) Exit Fault :=
  (setLoop key val size).withGhost spend

theorem trackedLoop_body {a b : Impl ε} {m m' : ℕ} :
    (trackedLoop key val size).body (a, m) = .ok (e, b, m') ↔
      a.setBody key val size = .ok (e, b) ∧ m' = spend a b m :=
  Loop.withGhost_body

/-- One call, with the ghost. -/
def trackedStep (p : Impl ε × Ghost) : Op → Except Fault (Result × Impl ε × Ghost)
  | .set key val size =>
    ((trackedLoop key val size).run .deep (p.1.triples.length + 1) (p.1, p.2.placeholders)).map
      fun (es, s', n) => (.set es, s', ⟨n, max p.2.peak (s'.stored n)⟩)
  | .reset => .ok (.reset, p.1.reset, { p.2 with placeholders := p.1.dict.length })
  | o => (p.1.step o).map fun (r, s') =>
    (r, s', { p.2 with placeholders := spend p.1 s' p.2.placeholders })

/-- Every activation of `set _ _ size` in the call starts in a state, with so many placeholders
left, that meets `P · · size`. -/
def EachTracked (P : Impl ε → ℕ → UInt32 → Prop) (p : Impl ε × Ghost) : Op → Prop
  | .set key val size => ∀ q, (trackedLoop key val size).Entered (p.1, p.2.placeholders) q →
      P q.1 q.2 size
  | _ => True

instance (P : Impl ε → ℕ → UInt32 → Prop) [∀ a n m, Decidable (P a n m)] (p : Impl ε × Ghost)
    (o : Op) : Decidable (EachTracked P p o) :=
  match o with
  | .set key val size =>
    have := List.decidableBAll (fun q : Impl ε × ℕ => P q.1 q.2 size)
      ((trackedLoop key val size).starts (p.1.triples.length + 1) (p.1, p.2.placeholders))
    decidable_of_iff
      (∀ q ∈ (trackedLoop key val size).starts (p.1.triples.length + 1) (p.1, p.2.placeholders),
        P q.1 q.2 size)
      (by
        simp only [EachTracked, Loop.entered_iff_mem_starts
          (L := trackedLoop key val size) (μ := fun q => q.1.triples.length)
          (fun _ _ h => triples_length_of_calls h.erase) _ _ (Nat.lt_succ_self _)])
  | .get _ _ | .del _ | .spaceUsed | .reset => isTrue trivial

/-- The outcomes of a call. -/
inductive TrackedCall (s : Impl ε) (γ : Ghost) : Op → Result → Impl ε × Ghost → Prop
  | set {key : KeyType} {val : ValType} {size : UInt32} {es : List Exit} {s' : Impl ε} {n : ℕ} :
      (trackedLoop key val size).Ends (s, γ.placeholders) es (s', n) →
      TrackedCall s γ (.set key val size) (.set es) (s', ⟨n, max γ.peak (s'.stored n)⟩)
  | get {key : KeyType} {m m' : UInt32} {v : ValType} {s' : Impl ε} :
      s.get key m = .ok (v, m', s') → TrackedCall s γ (.get key m) (.get v m') (s', γ)
  | kept {key : KeyType} : s.lookup key = none → TrackedCall s γ (.del key) (.del false) (s, γ)
  | del {key : KeyType} {t : Triple} {s' : Impl ε} : s.Deletes key t s' →
      TrackedCall s γ (.del key) (.del true) (s', { γ with
        placeholders := γ.placeholders - if t = Triple.default then 1 else 0 })
  | spaceUsed : TrackedCall s γ .spaceUsed (.spaceUsed s.spaceUsed) (s, γ)
  | reset : TrackedCall s γ .reset .reset (s.reset, { γ with placeholders := s.dict.length })

theorem trackedStep_cases {γ : Ghost} {o : Op} {r : Result} {q : Impl ε × Ghost}
    (h : trackedStep (s, γ) o = .ok (r, q)) : s.TrackedCall γ o r q := by
  have hself : spend s s γ.placeholders = γ.placeholders := spend_of_le (Nat.le_refl _)
  cases o with
  | set key val size =>
    obtain ⟨⟨es, s', n⟩, hrun, hq⟩ := map_eq_ok.1 h
    cases hq
    exact .set (Loop.ends_of_run hrun)
  | get key m =>
    obtain ⟨⟨r', s'⟩, hst, hq⟩ := map_eq_ok.1 h
    cases hq
    cases step_cases hst with
    | get hget =>
      have hspend : spend s s' γ.placeholders = γ.placeholders := by
        obtain ⟨-, ⟨-, -, -, rfl⟩ | ⟨_, _, -, -, -, -, rfl⟩⟩ := get_cases hget
        exacts [hself, hself]
      rw [hspend]
      exact .get hget
  | del key =>
    obtain ⟨⟨r', s'⟩, hst, hq⟩ := map_eq_ok.1 h
    cases hq
    cases step_cases hst with
    | del hdel =>
      obtain ⟨-, ⟨rfl, rfl, hno⟩ | ⟨rfl, t, hd⟩⟩ := del_cases hdel
      · rw [hself]
        exact .kept hno
      · rw [hd.spend_eq]
        exact .del hd
  | spaceUsed =>
    cases h
    rw [hself]
    exact .spaceUsed
  | reset => cases h; exact .reset

end Evictor

end Impl

/-- The library cache with its ghost. -/
def tracked (ε : Type) [Evictor ε] : Machine (Impl ε × Impl.Ghost) Op Result Fault :=
  ⟨Impl.trackedStep⟩

/-- **The ghost changes nothing.** -/
theorem tracked_carries (ε : Type) [Evictor ε] : (tracked ε).Carries (library ε) := by
  rintro ⟨s, γ⟩ o
  have hmap : ∀ {x : Except Fault (Result × Impl ε)},
      Agree SameState (x.map fun (r, s') => (r, s', (⟨Impl.spend s s' γ.placeholders, γ.peak⟩ :
        Impl.Ghost))) x := by
    rintro (_ | _)
    exacts [rfl, ⟨rfl, rfl⟩]
  cases o with
  | set key val size =>
    have hag := Loop.agree_run_withGhost (L := Impl.setLoop key val size) (f := Impl.spend)
      .deep (s.triples.length + 1) (s, γ.placeholders)
    simp only [tracked, library, Impl.trackedStep, Impl.trackedLoop, Impl.step, Impl.set]
    obtain ⟨f, hx, hy⟩ | ⟨es, p, s', hx, hy, hps⟩ := agree_iff.1 hag
    · rw [hx, hy]
      exact rfl
    · rw [hx, hy]
      exact ⟨rfl, hps⟩
  | get key m => exact hmap
  | del key => exact hmap
  | spaceUsed => exact ⟨rfl, rfl⟩
  | reset => exact ⟨rfl, rfl⟩

theorem reaches_iff_tracked {ε : Type} [Evictor ε] {s₀ s : Impl ε} {γ₀ : Impl.Ghost}
    {H : List (Op × Result)} : (library ε).Reaches (fun _ _ => True) s₀ H s ↔
      ∃ γ, (tracked ε).Reaches (fun _ _ => True) (s₀, γ₀) H (s, γ) := by
  constructor
  · exact fun h => (tracked_carries ε).exists_ghost h γ₀
  · rintro ⟨γ, h⟩
    exact (tracked_carries ε).erase h

end CrankItUp
