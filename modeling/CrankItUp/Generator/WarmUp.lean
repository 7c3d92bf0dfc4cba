import CrankItUp.Generator.Known
import CrankItUp.Machine.Loop

/-!
# Warming up the cache

Before a measurement the benchmark fills the cache: `warm_cache` generates requests, and sends the
`PUT`s among them.  Its counter is advanced for every request by the loop, and once more for every
`PUT`.

* `warmCacheLoop` : the loop of `warm_cache`, with the requests that it sends.
* `puts mg draws k` : the number of `PUT`s among the first `k` requests that are generated.
* `WarmUp.Counts` : the counter is the number of requests, in which a `PUT` counts twice.
* `sent_eq_iff` : when `warm_cache n` has sent `n` `PUT`s.
* `warmCache_ends` : below the largest bound `warm_cache n` comes to an end.
-/

namespace CrankItUp

/-- The state of `warm_cache`. -/
structure WarmUp where
  numPut : UInt32
  requestGen : RequestGenerator
  /-- The number of requests that have been generated. -/
  generated : ℕ
  sent : List Request

/-- Nothing has been generated or sent. -/
def WarmUp.start (requestGen : RequestGenerator) : WarmUp := ⟨0, requestGen, 0, []⟩

/-- The loop of `warm_cache`, which is given what is drawn for each request. -/
def warmCacheLoop (draws : ℕ → Draws) (numToPut : UInt32) : Loop WarmUp Bool Fault where
  body st :=
    if st.numPut < numToPut then do
      let (request, requestGen) ← st.requestGen.generateRequest (draws st.generated)
      let st := { st with requestGen := requestGen, generated := st.generated + 1 }
      if request.method = .put then
        let st := { st with numPut := st.numPut + 1, sent := st.sent ++ [request] }
        -- the counter is advanced once more by the loop
        return (true, { st with numPut := st.numPut + 1 })
      else return (true, { st with numPut := st.numPut + 1 })
    else return (false, st)
  again := id

/-- The number of `PUT`s among the first `k` requests. -/
def puts (mg : MethodGenerator) (draws : ℕ → Draws) (k : ℕ) : ℕ :=
  (List.range k).countP fun i => mg.generateMethod (draws i) = .put

/-- The value of the counter after `k` requests, if it did not wrap. -/
def counted (mg : MethodGenerator) (draws : ℕ → Draws) (k : ℕ) : ℕ := k + puts mg draws k

variable {mg : MethodGenerator} {draws : ℕ → Draws} {n : UInt32} {st st' : WarmUp}
  {g g' : RequestGenerator} {d : Draws} {req : Request} {es : List Bool}

theorem puts_succ_put {k : ℕ} (h : mg.generateMethod (draws k) = .put) :
    puts mg draws (k + 1) = puts mg draws k + 1 := by
  simp [puts, List.range_succ, h]

theorem puts_succ_ne {k : ℕ} (h : mg.generateMethod (draws k) ≠ .put) :
    puts mg draws (k + 1) = puts mg draws k := by
  simp [puts, List.range_succ, h]

/-- A `PUT` advances the counter twice. -/
theorem ofNat_counted_put {k : ℕ} (h : mg.generateMethod (draws k) = .put) :
    UInt32.ofNat (counted mg draws (k + 1)) = UInt32.ofNat (counted mg draws k) + 1 + 1 := by
  have hcount : counted mg draws (k + 1) = counted mg draws k + 1 + 1 := by
    rw [counted, counted, puts_succ_put h]
    omega
  rw [hcount, UInt32.ofNat_add, UInt32.ofNat_add]
  rfl

theorem ofNat_counted_ne {k : ℕ} (h : mg.generateMethod (draws k) ≠ .put) :
    UInt32.ofNat (counted mg draws (k + 1)) = UInt32.ofNat (counted mg draws k) + 1 := by
  have hcount : counted mg draws (k + 1) = counted mg draws k + 1 := by
    rw [counted, counted, puts_succ_ne h]
    omega
  rw [hcount, UInt32.ofNat_add]
  rfl

theorem puts_succ_le (mg : MethodGenerator) (draws : ℕ → Draws) (k : ℕ) :
    puts mg draws k ≤ puts mg draws (k + 1) ∧ puts mg draws (k + 1) ≤ puts mg draws k + 1 := by
  by_cases h : mg.generateMethod (draws k) = .put
  · have := puts_succ_put h
    omega
  · have := puts_succ_ne h
    omega

theorem method_of_generateRequest (h : g.generateRequest d = .ok (req, g')) :
    req.method = g.methodGenerator.generateMethod d ∧ g'.methodGenerator = g.methodGenerator := by
  unfold RequestGenerator.generateRequest at h
  rcases RequestGenerator.generateMethod_cases g.methodGenerator d with hm | hm | hm <;>
    simp only [hm] at h ⊢
  · split at h
    · obtain ⟨target, -, h⟩ := bind_eq_ok.1 h
      cases h
      exact ⟨rfl, rfl⟩
    · cases h
      exact ⟨rfl, rfl⟩
  · split at h
    · cases h
      exact ⟨rfl, rfl⟩
    · cases h
      exact ⟨rfl, rfl⟩
  · split at h
    · obtain ⟨key, -, h⟩ := bind_eq_ok.1 h
      cases h
      exact ⟨rfl, rfl⟩
    · cases h
      exact ⟨rfl, rfl⟩

namespace WarmUp

/-- What the counter counts, and what has been sent. -/
structure Counts (mg : MethodGenerator) (draws : ℕ → Draws) (n : UInt32) (st : WarmUp) : Prop where
  methods : st.requestGen.methodGenerator = mg
  counter : st.numPut = UInt32.ofNat (counted mg draws st.generated)
  sent : st.sent.length = puts mg draws st.generated
  all_puts : ∀ req ∈ st.sent, req.method = .put
  below : ∀ k < st.generated, counted mg draws k % 2 ^ 32 < n.toNat

theorem counts_start (g : RequestGenerator) : Counts g.methodGenerator draws n (start g) :=
  ⟨rfl, rfl, rfl, fun _ h => absurd h List.not_mem_nil, fun _ h => absurd h (Nat.not_lt_zero _)⟩

theorem body_cases {b : Bool} (h : (warmCacheLoop draws n).body st = .ok (b, st')) :
    (b = false ∧ ¬ st.numPut < n ∧ st' = st) ∨
      (b = true ∧ st.numPut < n ∧ ∃ req g', st.requestGen.generateRequest (draws st.generated) =
        .ok (req, g') ∧ st' = if req.method = .put
          then ⟨st.numPut + 1 + 1, g', st.generated + 1, st.sent ++ [req]⟩
          else ⟨st.numPut + 1, g', st.generated + 1, st.sent⟩) := by
  simp only [warmCacheLoop] at h
  split at h
  · rename_i hlt
    obtain ⟨⟨req, g'⟩, hreq, h⟩ := bind_eq_ok.1 h
    refine .inr ?_
    split at h
    · rename_i hput
      cases h
      exact ⟨rfl, hlt, req, g', hreq, (if_pos hput).symm⟩
    · rename_i hput
      cases h
      exact ⟨rfl, hlt, req, g', hreq, (if_neg hput).symm⟩
  · rename_i hlt
    cases h
    exact .inl ⟨rfl, hlt, rfl⟩

theorem Counts.body {b : Bool} (hc : Counts mg draws n st)
    (h : (warmCacheLoop draws n).body st = .ok (b, st')) : Counts mg draws n st' := by
  obtain ⟨-, -, rfl⟩ | ⟨-, hlt, req, g', hreq, rfl⟩ := body_cases h
  · exact hc
  · obtain ⟨hmethod, hmethods⟩ := method_of_generateRequest hreq
    rw [hc.methods] at hmethod hmethods
    have hbelow : ∀ k < st.generated + 1, counted mg draws k % 2 ^ 32 < n.toNat := by
      intro k hk
      rcases Nat.lt_succ_iff_lt_or_eq.1 hk with hk | rfl
      · exact hc.below k hk
      · rw [hc.counter, UInt32.lt_iff_toNat_lt, UInt32.toNat_ofNat'] at hlt
        exact hlt
    by_cases hput : req.method = .put
    · rw [if_pos hput]
      rw [hput] at hmethod
      refine ⟨hmethods, ?_, ?_, ?_, hbelow⟩
      · rw [ofNat_counted_put hmethod.symm, ← hc.counter]
      · rw [List.length_append, hc.sent, puts_succ_put hmethod.symm]
        rfl
      · intro x hx
        rcases List.mem_append.1 hx with hx | hx
        · exact hc.all_puts x hx
        · rw [List.mem_singleton.1 hx, hput]
    · rw [if_neg hput]
      rw [hmethod] at hput
      refine ⟨hmethods, ?_, ?_, hc.all_puts, hbelow⟩
      · rw [ofNat_counted_ne hput, ← hc.counter]
      · rw [hc.sent, puts_succ_ne hput]

theorem Counts.ends (hc : Counts mg draws n st) (h : (warmCacheLoop draws n).Ends st es st') :
    Counts mg draws n st' ∧ n.toNat ≤ counted mg draws st'.generated % 2 ^ 32 := by
  have hc' : Counts mg draws n st' :=
    h.invariant (P := Counts mg draws n) hc fun _ _ _ _ _ hc hb => hc.body hb
  refine ⟨hc', ?_⟩
  have hlast : ¬ st'.numPut < n := by
    clear hc hc'
    induction h with
    | last hb hno =>
      obtain ⟨-, hlt, rfl⟩ | ⟨rfl, -⟩ := body_cases hb
      · exact hlt
      · cases hno
    | more _ _ _ ih => exact ih
  rw [hc'.counter, UInt32.lt_iff_toNat_lt, UInt32.toNat_ofNat'] at hlast
  omega

end WarmUp

/-! ### How many `PUT`s are sent -/

/-- At the bound `2 ^ 32 - 1` the counter may step over it and wrap.  When it has wrapped `w` times,
it stops after `(w - 1) * 2 ^ 32 + 1` requests that are no `PUT`s. -/
def Wraps (mg : MethodGenerator) (draws : ℕ → Draws) : Prop :=
  ∃ k, counted mg draws k % 2 ^ 32 + 1 = 2 ^ 32 ∧
    (∀ j < k, counted mg draws j % 2 ^ 32 + 1 ≠ 2 ^ 32) ∧
    k - puts mg draws k + 2 ^ 32 = 2 ^ 32 * (counted mg draws k / 2 ^ 32) + 1

theorem counted_lt {m k : ℕ} (hm : m + 1 < 2 ^ 32)
    (hbelow : ∀ j < k, counted mg draws j % 2 ^ 32 < m) : counted mg draws k < 2 ^ 32 := by
  induction k with
  | zero => simp [counted, puts]
  | succ k ih =>
    have hk := ih fun j hj => hbelow j (by omega)
    have hlt := hbelow k (by omega)
    have hsucc := puts_succ_le mg draws k
    simp only [counted] at *
    omega

theorem puts_le (mg : MethodGenerator) (draws : ℕ → Draws) (k : ℕ) : puts mg draws k ≤ k := by
  simpa [puts] using List.countP_le_length (l := List.range k)
    (p := fun i => decide (mg.generateMethod (draws i) = .put))

theorem puts_eq_iff_wraps {m k : ℕ} (hm : m + 1 = 2 ^ 32)
    (hbelow : ∀ j < k, counted mg draws j % 2 ^ 32 < m) (hk : m ≤ counted mg draws k % 2 ^ 32) :
    puts mg draws k = m ↔ Wraps mg draws := by
  have hle := puts_le mg draws k
  have hmod := Nat.div_add_mod (counted mg draws k) (2 ^ 32)
  have hstop : counted mg draws k % 2 ^ 32 = m := by omega
  rw [hstop] at hmod
  have hcount : counted mg draws k = k + puts mg draws k := rfl
  constructor
  · intro hputs
    refine ⟨k, by omega, fun j hj => ?_, by omega⟩
    have := hbelow j hj
    omega
  · rintro ⟨k', hk', hmin, hothers⟩
    -- both are the first at which the counter has this value
    obtain rfl : k' = k := by
      rcases Nat.lt_trichotomy k' k with hlt | heq | hlt
      · have := hbelow k' hlt
        omega
      · exact heq
      · exact absurd (by omega) (hmin k hlt)
    omega

theorem puts_eq_iff_small {m k : ℕ} (hm : m + 1 < 2 ^ 32)
    (hbelow : ∀ j < k, counted mg draws j % 2 ^ 32 < m) (hk : m ≤ counted mg draws k % 2 ^ 32) :
    puts mg draws k = m ↔ m = 0 ∨ (m = 1 ∧ mg.generateMethod (draws 0) = .put) := by
  have hlt := counted_lt hm hbelow
  rw [Nat.mod_eq_of_lt hlt] at hk
  have hcount : ∀ j, counted mg draws j = j + puts mg draws j := fun _ => rfl
  have hone : puts mg draws 1 = 1 ↔ mg.generateMethod (draws 0) = .put := by
    simp [puts, List.range_succ]
  cases k with
  | zero =>
    have h0 : puts mg draws 0 = 0 := rfl
    have := hcount 0
    omega
  | succ k =>
    have hprev := hbelow k (Nat.lt_succ_self k)
    have hsucc := puts_succ_le mg draws k
    have hle := puts_le mg draws k
    have hle' := puts_le mg draws (k + 1)
    have hprevCount := hcount k
    have hlastCount := hcount (k + 1)
    rw [Nat.mod_eq_of_lt (by omega)] at hprev
    constructor
    · intro hputs
      obtain rfl : k = 0 := by omega
      have hm1 : m = 1 := by omega
      exact .inr ⟨hm1, hone.1 (hputs.trans hm1)⟩
    · rintro (h0 | ⟨h1, hput⟩)
      · omega
      · obtain rfl : k = 0 := by omega
        rw [hone.2 hput, h1]

/-- **How many `PUT`s are sent.**  `warm_cache n` sends `n` of them exactly if there are none to
send, or one that comes first, or `n` is `2 ^ 32 - 1` and the counter wraps as it has to. -/
theorem sent_eq_iff (draws : ℕ → Draws) (g : RequestGenerator) (n : UInt32) {es : List Bool}
    {st : WarmUp} (h : (warmCacheLoop draws n).Ends (.start g) es st) :
    (st.sent.filter fun req => req.method = .put).length = n.toNat ↔
      n = 0 ∨ (n = 1 ∧ g.methodGenerator.generateMethod (draws 0) = .put) ∨
        (n.toNat + 1 = 2 ^ 32 ∧ Wraps g.methodGenerator draws) := by
  obtain ⟨hc, hstop⟩ := (WarmUp.counts_start g).ends h
  have hall : st.sent.filter (fun req => req.method = .put) = st.sent :=
    List.filter_eq_self.2 fun req hreq => decide_eq_true (hc.all_puts req hreq)
  have hzero : n = 0 ↔ n.toNat = 0 := UInt32.toNat_inj.symm
  have hone : n = 1 ↔ n.toNat = 1 := UInt32.toNat_inj.symm
  have hlt := n.toNat_lt
  rw [hall, hc.sent, hzero, hone]
  rcases Nat.lt_or_ge (n.toNat + 1) (2 ^ 32) with hn | hn
  · rw [puts_eq_iff_small hn hc.below hstop]
    constructor
    · rintro (h0 | h1)
      exacts [.inl h0, .inr (.inl h1)]
    · rintro (h0 | h1 | ⟨hmax, -⟩)
      exacts [.inl h0, .inr h1, absurd hmax (by omega)]
  · have hmax : n.toNat + 1 = 2 ^ 32 := by omega
    rw [puts_eq_iff_wraps hmax hc.below hstop]
    constructor
    · exact fun hwraps => .inr (.inr ⟨hmax, hwraps⟩)
    · rintro (h0 | ⟨h1, -⟩ | ⟨-, hwraps⟩)
      exacts [absurd h0 (by omega), absurd h1 (by omega), hwraps]

/-- A generator with a pool of one key. -/
def generatorA : RequestGenerator := .new ⟨3/5, 9/10⟩ fun _ => RequestGenerator.keyA

/-- Draws for which every request is a `PUT`. -/
def drawPuts (_ : ℕ) : Draws := RequestGenerator.drawsOf (7/10) 0

/-- One `PUT` is asked for, and comes first. -/
theorem sent_eq_one : ∃ es st, (warmCacheLoop drawPuts 1).Ends (.start generatorA) es st ∧
    (st.sent.filter fun req => req.method = .put).length = 1 := by
  obtain ⟨es, st, h, -⟩ : ∃ es st, (warmCacheLoop drawPuts 1).Ends (.start generatorA) es st ∧
    st.generated = 1 := Loop.exists_ends_of_run .deep 2 (by decide +kernel)
  exact ⟨es, st, h, (sent_eq_iff _ _ _ h).2 (.inr (.inl ⟨rfl, by decide +kernel⟩))⟩

/-- Two `PUT`s are asked for, and one is sent. -/
theorem sent_ne_two : ∃ es st, (warmCacheLoop drawPuts 2).Ends (.start generatorA) es st ∧
    (st.sent.filter fun req => req.method = .put).length ≠ 2 :=
  Loop.exists_ends_of_run .deep 2 (by decide +kernel)

/-! ### The loop ends -/

theorem WarmUp.body_isOk (draws : ℕ → Draws) {keyPool : Fin keyPoolSize → PoolKey}
    (hg : RequestGenerator.Known keyPool st.requestGen) (hlt : st.numPut < n) :
    ∃ st', (warmCacheLoop draws n).body st = .ok (true, st') ∧
      RequestGenerator.Known keyPool st'.requestGen ∧
      (st'.numPut = st.numPut + 1 ∨ st'.numPut = st.numPut + 1 + 1) := by
  obtain ⟨req, g', hreq⟩ := hg.exists_generateRequest (draws st.generated)
  have hg' := hg.generates (RequestGenerator.generates_cases hreq)
  by_cases hput : req.method = .put
  · refine ⟨⟨st.numPut + 1 + 1, g', st.generated + 1, st.sent ++ [req]⟩, ?_, hg', .inr rfl⟩
    simp only [warmCacheLoop, if_pos hlt, hreq, ok_bind, if_pos hput]
    rfl
  · refine ⟨⟨st.numPut + 1, g', st.generated + 1, st.sent⟩, ?_, hg', .inl rfl⟩
    simp only [warmCacheLoop, if_pos hlt, hreq, ok_bind, if_neg hput]
    rfl

/-- Below the largest bound the counter reaches it. -/
theorem WarmUp.ends (draws : ℕ → Draws) {keyPool : Fin keyPoolSize → PoolKey}
    (hg : RequestGenerator.Known keyPool st.requestGen) (hn : n.toNat + 1 < 2 ^ 32) :
    ∃ es st', (warmCacheLoop draws n).Ends st es st' := by
  induction hμ : n.toNat - st.numPut.toNat using Nat.strong_induction_on generalizing st with
  | _ μ ih =>
    by_cases hlt : st.numPut < n
    · obtain ⟨st₁, hbody, hg₁, hcount⟩ := body_isOk draws hg hlt
      rw [UInt32.lt_iff_toNat_lt] at hlt
      -- the counter does not wrap
      have hnext : st.numPut.toNat < st₁.numPut.toNat := by
        rcases hcount with h | h <;> rw [h] <;> simp only [UInt32.toNat_add, UInt32.toNat_one] <;>
          omega
      obtain ⟨es, st', hends⟩ := ih _ (by omega) hg₁ rfl
      exact ⟨true :: es, st', .more hbody rfl hends⟩
    · exact ⟨[false], st, .last (if_neg hlt) rfl⟩

/-- **`warm_cache` comes to an end** below the largest bound, from every generator that has been in
use.  The requests that it has generated, among which the `PUT`s that it has sent count twice, are
as many as asked for, or one more. -/
theorem warmCache_ends {keyPool : Fin keyPoolSize → PoolKey} {H : List (Draws × Request)}
    (h : generator.Reaches (fun _ _ => True) (.new mg keyPool) H g) (hn : n.toNat + 1 < 2 ^ 32)
    (draws : ℕ → Draws) : ∃ es st, (warmCacheLoop draws n).Ends (.start g) es st ∧
      n.toNat ≤ st.generated + st.sent.length ∧ st.generated + st.sent.length ≤ n.toNat + 1 := by
  have hg : RequestGenerator.Known keyPool (WarmUp.start g).requestGen := .of_reaches h
  obtain ⟨es, st, hends⟩ := WarmUp.ends draws hg hn
  obtain ⟨hc, hstop⟩ := (WarmUp.counts_start g).ends hends
  have hcount : counted g.methodGenerator draws st.generated = st.generated + st.sent.length := by
    rw [counted, hc.sent]
  have hlt := counted_lt hn hc.below
  rw [Nat.mod_eq_of_lt hlt, hcount] at hstop
  refine ⟨es, st, hends, hstop, ?_⟩
  rcases Nat.eq_zero_or_pos st.generated with hzero | hpos
  · rw [← hcount, hzero]
    exact Nat.zero_le _
  · -- the request before the last one has not reached the bound
    have hbelow := hc.below (st.generated - 1) (by omega)
    have hstep := puts_succ_le g.methodGenerator draws (st.generated - 1)
    rw [Nat.sub_add_cancel hpos] at hstep
    simp only [counted] at hcount hbelow hlt
    omega

/-- A new generator, and a bound that is met by one `PUT`. -/
theorem warmCache_ends_two : ∃ es st, (warmCacheLoop drawPuts 2).Ends (.start generatorA) es st ∧
    2 ≤ st.generated + st.sent.length ∧ st.generated + st.sent.length ≤ 3 :=
  warmCache_ends .start (by decide) drawPuts

end CrankItUp
