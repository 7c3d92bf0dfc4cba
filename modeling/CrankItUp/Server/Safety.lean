import CrankItUp.Cache.Conservation
import CrankItUp.Cache.Doubling
import CrankItUp.Server.Codec

/-!
# Which requests are answered

* `Impl.EachEntry P s` : every triple with a key other than the empty one meets `P`.  `reset`
  leaves triples with the empty key and a null pointer, which no request can name.
* `Request.Answerable` : the target of the request names what its method needs.
* `answered_iff` : exactly the answerable requests are answered; the server dies of the others,
  or does not answer them.
* `served` : for requests of a bounded length, stored values are not empty and have the size that
  is stored with them, a request with an acceptable target does not end in a fault, and a `GET`
  of a key that the search finds answers its value.
-/

namespace CrankItUp

/-- The value is a string that is not empty. -/
def Triple.Filled (t : Triple) : Prop := ∃ v, t.val = some v ∧ 0 < v.strlen

/-- The value is a string that is not empty, and the size is that of the string. -/
def Triple.Sized (t : Triple) : Prop :=
  ∃ v, t.val = some v ∧ 0 < v.strlen ∧ t.size.toNat = v.strlen + 1

theorem Triple.Sized.filled {t : Triple} (h : t.Sized) : t.Filled := by
  obtain ⟨v, hv, hpos, -⟩ := h
  exact ⟨v, hv, hpos⟩

/-- The key that the call names, if it names one, is not empty. -/
def Op.Keyed : Op → Prop
  | .set key _ _ | .get key _ | .del key => key ≠ []
  | .spaceUsed | .reset => True

/-- The triple that the call stores, if it stores one, meets `P`. -/
def Op.Stores (P : Triple → Prop) : Op → Prop
  | .set key val size => P ⟨key, size, val⟩
  | _ => True

namespace Impl

variable {ε : Type}

/-- Every triple with a key other than the empty one meets `P`. -/
def EachEntry (P : Triple → Prop) (s : Impl ε) : Prop := ∀ t ∈ s.triples, t.key ≠ [] → P t

variable {P Q : Triple → Prop} {s s' g : Impl ε} {key : KeyType} {t : Triple}

theorem EachEntry.imp (h : s.EachEntry P) (hPQ : ∀ t, P t → Q t) : s.EachEntry Q :=
  fun t ht hkey => hPQ t (h t ht hkey)

theorem EachEntry.of_lookup (h : s.EachEntry P) (hl : s.lookup key = some t) (hkey : key ≠ []) :
    P t :=
  h t (lookup_mem_triples hl) (by rwa [lookup_key hl])

theorem EachEntry.grow (h : s.EachEntry P) (hg : s.grow = .ok g) : g.EachEntry P :=
  fun t ht hkey => h t ((mem_grow_triples hg).1 ht) hkey

variable [Evictor ε]

theorem EachEntry.call {o : Op} {r : Result} (h : s.EachEntry P) (ho : o.Stores P)
    (hc : s.Call o r s') : s'.EachEntry P := by
  refine hc.induction h (eachDeletion_true s o) (fun _ _ _ ha => ha) ?_ ?_ ?_ ?_
  · exact fun _ _ _ _ _ _ _ ha hg => ha.grow hg
  · rintro key val size a g rfl _ _ hPg hpos _ _ t ht hkey
    rcases (mem_push_triples hpos).1 ht with rfl | ht
    exacts [ho, hPg t ht hkey]
  · exact fun _ _ _ _ hPg _ hd t ht hkey => hPg t (hd.subset t ht) hkey
  · -- the triples that `reset` leaves have the empty key
    intro _ t ht hkey
    rw [mem_reset_triples ht] at hkey
    exact absurd rfl hkey

/-- Where every entry has a value, a call that names a key does not end in a fault, as long as
the number of buckets does not overflow. -/
theorem EachEntry.step_isOk {o : Op} (h : s.EachEntry Triple.Filled) (hd : s.Doubled)
    (hkey : o.Keyed) (hover : s.EachActivation (fun a _ _ => a.NoOverflow) o) :
    ∃ p, s.step o = .ok p := by
  cases o with
  | set key val size =>
    have hkeyval : s.Valued key := by
      rintro t ht rfl
      obtain ⟨v, hv, -⟩ := h t ht hkey
      simp [hv]
    obtain ⟨es, s', hs⟩ := set_isOk_of_valued hd.pos hkeyval hover
    simp only [step, hs]
    exact ⟨_, rfl⟩
  | get key n =>
    have hget : ∃ p, s.get key n = .ok p := by
      cases hl : s.lookup key with
      | none => simp [get_eq hd.pos, hl]
      | some t =>
        obtain ⟨v, hv, -⟩ := h.of_lookup hl hkey
        exact ⟨_, get_of_lookup hl hv n⟩
    obtain ⟨p, hp⟩ := hget
    simp only [step, hp]
    exact ⟨_, rfl⟩
  | del key =>
    obtain ⟨p, hp⟩ := del_isOk hd.pos key
    simp only [step, hp]
    exact ⟨_, rfl⟩
  | spaceUsed => exact ⟨_, rfl⟩
  | reset => exact ⟨_, rfl⟩

end Impl

/-! ### The calls of the server -/

namespace Request

variable {req : Request} {o : Op} {key : KeyType} {valstr : Bytes}

theorem Names.length_eq (h : req.Names key valstr) :
    key.length + valstr.length + 2 ≤ req.target.length := by
  have := congrArg List.length h.split
  simp only [List.length_drop, List.length_append, List.length_cons] at this
  omega

theorem Names.notMem (h : req.Names key valstr) (hnul : 0 ∉ req.target) : 0 ∉ valstr := by
  intro hmem
  refine hnul (List.mem_of_mem_drop (i := 1) ?_)
  rw [h.split]
  exact List.mem_append_right _ (List.mem_cons_of_mem _ hmem)

theorem key_ne_nil (h : 1 < req.target.length) : req.key ≠ [] := by
  rw [← List.length_pos_iff, key, List.length_drop]
  omega

theorem Asks.keyed (h : req.Asks (some o)) : o.Keyed := by
  cases h with
  | get _ hlen => exact key_ne_nil hlen
  | put _ hn => exact hn.key_ne
  | delete _ hlen => exact key_ne_nil hlen
  | head => trivial
  | reset => trivial

theorem Asks.stores {P : Triple → Prop} (h : req.Asks (some o))
    (hput : ∀ key valstr, req.Names key valstr →
      P ⟨key, storedSize valstr, some (strcpy valstr)⟩) : o.Stores P := by
  cases h with
  | put _ hn => exact hput _ _ hn
  | get | delete | head | reset => trivial

theorem Names.strlen_pos (h : req.Names key valstr) (hnul : 0 ∉ req.target) :
    0 < (strcpy valstr).strlen := by
  rw [strlen_strcpy (h.notMem hnul)]
  exact List.length_pos_iff.2 h.val_ne

theorem Asks.stores_filled (h : req.Asks (some o)) (hnul : 0 ∉ req.target) :
    o.Stores Triple.Filled :=
  h.stores fun _ _ hn => ⟨_, rfl, hn.strlen_pos hnul⟩

theorem Asks.stores_sized (h : req.Asks (some o)) (hnul : 0 ∉ req.target)
    (hlen : req.target.length + 1 < 2 ^ 32) : o.Stores Triple.Sized := by
  refine h.stores fun key valstr hn => ⟨_, rfl, hn.strlen_pos hnul, ?_⟩
  have hle := hn.length_eq
  rw [strlen_strcpy (hn.notMem hnul), storedSize, UInt32.toNat_ofNat',
    Nat.mod_eq_of_lt (by omega)]

end Request

/-! ### The states of the server -/

/-- What is known of the server's cache, given that all its entries meet `P`. -/
structure Serving (P : Triple → Prop) (s : Impl LRU) : Prop where
  doubled : s.Doubled
  hasEvictor : s.evictor.isSome
  entries : s.EachEntry P

variable {P : Triple → Prop} {s s' : Impl LRU} {req : Request} {res : Option Response}
  {maxmem : UInt32} {loadFactor : FloatVal} {hasher : KeyType → UInt64}
  {H : List (Request × Option Response)}

theorem serving_serverCache (P : Triple → Prop) (maxmem : UInt32) (loadFactor : FloatVal)
    (hasher : KeyType → UInt64) : Serving P (serverCache maxmem loadFactor hasher) := by
  refine ⟨Impl.doubled_new _ _ _ _, rfl, fun t ht => ?_⟩
  rw [serverCache, Impl.new_triples] at ht
  cases ht

/-- A request that is handled keeps this if what it stores meets `P`. -/
theorem Serving.handle (hs : Serving P s) (hP : ∀ o, req.Asks (some o) → o.Stores P)
    (h : handleRequest s req = .ok (res, s')) :
    req.Calls (Impl.EachActivation fun a _ _ => a.NoOverflow) s ∧ Serving P s' := by
  obtain ⟨o, r, hop, hr, -⟩ := op_of_handleRequest h
  rcases perform_cases hr with ⟨rfl, -, rfl⟩ | ⟨o, r, rfl, -, hst⟩
  · refine ⟨fun o ho => ?_, hs⟩
    cases hop.symm.trans ho
  · have hc := Impl.step_cases hst
    obtain ⟨hover, hd⟩ := hs.doubled.call hs.hasEvictor hc
    refine ⟨fun o' ho' => ?_, hd, hc.evictor_isSome.trans hs.hasEvictor,
      hs.entries.call (hP o (Request.op_eq_ok.1 hop)) hc⟩
    cases hop.symm.trans ho'
    exact hover

theorem serving_of_reaches {ok : Request → Prop}
    (hP : ∀ req o, ok req → req.Asks (some o) → o.Stores P)
    (h : server.Reaches (fun _ => ok) (serverCache maxmem loadFactor hasher) H s) :
    Serving P s :=
  h.state_invariant (serving_serverCache P _ _ _) fun _ req _ _ hs hok hst =>
    (hs.handle (fun o => hP req o hok) hst).2

/-! ### Which requests are answered -/

/-- The method is one that the server knows, and the target names what it needs; the size of a
value that is asked for must not be 0 when it is cut to 32 bits. -/
def Request.Answerable (s : Impl LRU) (req : Request) : Prop :=
  match req.method with
  | .get => 1 < req.target.length ∧
      ∀ t ∈ s.lookup req.key, ∀ v ∈ t.val, ¬ 2 ^ 32 ∣ v.strlen + 1
  | .put => ∃ key valstr, req.Names key valstr
  | .delete | .post => 1 < req.target.length
  | .head => True
  | .other => False

instance (req : Request) : Decidable (∃ key valstr, req.Names key valstr) :=
  match h : req.pair with
  | .ok (key, valstr) => isTrue ⟨key, valstr, Request.pair_eq_ok.1 h⟩
  | .error _ => isFalse fun ⟨key, valstr, hn⟩ => by
    rw [Request.pair_eq_ok.2 hn] at h
    cases h

instance (s : Impl LRU) (req : Request) : Decidable (req.Answerable s) :=
  match hm : req.method with
  | .get => decidable_of_iff (1 < req.target.length ∧
      ∀ t ∈ s.lookup req.key, ∀ v ∈ t.val, ¬ 2 ^ 32 ∣ v.strlen + 1)
      (by simp [Request.Answerable, hm])
  | .put => decidable_of_iff (∃ key valstr, req.Names key valstr) (by simp [Request.Answerable, hm])
  | .delete | .post => decidable_of_iff (1 < req.target.length) (by simp [Request.Answerable, hm])
  | .head => isTrue (by simp [Request.Answerable, hm])
  | .other => isFalse (by simp [Request.Answerable, hm])

theorem ofNat_pos_iff {n : ℕ} : 0 < UInt32.ofNat n ↔ ¬ 2 ^ 32 ∣ n := by
  rw [UInt32.lt_iff_toNat_lt, UInt32.toNat_ofNat', Nat.dvd_iff_mod_eq_zero]
  exact Nat.pos_iff_ne_zero

theorem respond_get_cases {key : KeyType} {n : UInt32} {v : CStr}
    (h : req.respond (some (.get key n, .get (some v) (UInt32.ofNat (v.strlen + 1)))) = .ok res) :
    (0 < v.strlen ∧ ¬ 2 ^ 32 ∣ v.strlen + 1 ∧ res = some (req.showPair .ok key v)) ∨
      (v.strlen = 0 ∧ res = some (Response.new req.version)) := by
  by_cases hv : 0 < v.strlen
  · rw [Request.respond_value hv] at h
    simp only [bind_eq_ok, assertThat_eq_ok] at h
    obtain ⟨_, hsize, h⟩ := h
    cases h
    exact .inl ⟨hv, ofNat_pos_iff.1 hsize, rfl⟩
  · rw [Request.respond_empty hv] at h
    cases h
    exact .inr ⟨Nat.eq_zero_of_not_pos hv, rfl⟩

theorem respond_get_isOk (key : KeyType) (n : UInt32) {v : CStr} (h : ¬ 2 ^ 32 ∣ v.strlen + 1) :
    ∃ res, req.respond (some (.get key n, .get (some v) (UInt32.ofNat (v.strlen + 1)))) =
      .ok (some res) := by
  by_cases hv : 0 < v.strlen
  · rw [Request.respond_value hv, assertThat_of (ofNat_pos_iff.2 h)]
    exact ⟨_, rfl⟩
  · exact ⟨_, Request.respond_empty hv⟩

theorem Request.Asks.respond_isOk {o : Op} {r : Result} (ha : req.Asks (some o))
    (hc : s.Call o r s') (hans : req.Answerable s) :
    ∃ res, req.respond (some (o, r)) = .ok (some res) := by
  cases ha with
  | get hm hlen =>
    cases hc with
    | get hget =>
      obtain ⟨-, ⟨-, rfl, -, -⟩ | ⟨t, v, hl, hv, rfl, rfl, -⟩⟩ := Impl.get_cases hget
      · exact ⟨_, rfl⟩
      · simp only [Request.Answerable, hm] at hans
        exact respond_get_isOk _ _ (hans.2 t hl v hv)
  | put => cases hc; exact ⟨_, rfl⟩
  | delete => cases hc; exact ⟨_, rfl⟩
  | head => cases hc; exact ⟨_, rfl⟩
  | reset => cases hc; exact ⟨_, rfl⟩

theorem Request.Asks.answerable {o : Option Op} (ha : req.Asks o) (hm : req.method ≠ .other)
    (hsize : req.method = .get → 1 < req.target.length → ∀ t ∈ s.lookup req.key, ∀ v ∈ t.val,
      ¬ 2 ^ 32 ∣ v.strlen + 1) : req.Answerable s := by
  unfold Request.Answerable
  cases ha with
  | get hm' hlen => simp only [hm']; exact ⟨hlen, hsize hm' hlen⟩
  | put hm' hn => simp only [hm']; exact ⟨_, _, hn⟩
  | delete hm' hlen => simp only [hm']; exact hlen
  | head hm' => simp only [hm']
  | reset hm' hlen => simp only [hm']; exact hlen
  | wrongTarget hm' hlen => simp only [hm']; exact hlen
  | other hm' => exact absurd hm' hm

theorem Request.Asks.eq_get {o : Option Op} (ha : req.Asks o) (hm : req.method = .get) :
    1 < req.target.length ∧ o = some (.get req.key 0) := by
  cases ha with
  | get _ hlen => exact ⟨hlen, rfl⟩
  | _ => simp_all

theorem handle_get_cases (hm : req.method = .get) (h : handleRequest s req = .ok (res, s')) :
    1 < req.target.length ∧ ((s.lookup req.key = none ∧ res = some req.notFound) ∨
      ∃ t v, s.lookup req.key = some t ∧ t.val = some v ∧
        ((0 < v.strlen ∧ ¬ 2 ^ 32 ∣ v.strlen + 1 ∧ res = some (req.showPair .ok req.key v)) ∨
          (v.strlen = 0 ∧ res = some (Response.new req.version)))) := by
  obtain ⟨o, p, hop, hr, hres⟩ := op_of_handleRequest h
  obtain ⟨hlen, rfl⟩ := (Request.op_eq_ok.1 hop).eq_get hm
  refine ⟨hlen, ?_⟩
  rcases perform_cases hr with ⟨hno, -⟩ | ⟨_, r, ⟨⟩, rfl, hst⟩
  · cases hno
  · cases Impl.step_cases hst with
    | get hget =>
      obtain ⟨-, ⟨hl, rfl, -⟩ | ⟨t, v, hl, hv, rfl, rfl, -⟩⟩ := Impl.get_cases hget
      · cases hres
        exact .inl ⟨hl, rfl⟩
      · exact .inr ⟨t, v, hl, hv, respond_get_cases hres⟩

theorem answerable_of_handle {r : Response} (h : handleRequest s req = .ok (some r, s')) :
    req.Answerable s := by
  obtain ⟨o, p, hop, -, -⟩ := op_of_handleRequest h
  refine (Request.op_eq_ok.1 hop).answerable (fun hm => ?_) fun hm _ t hl v hv => ?_
  · -- nothing is sent for other methods
    have hsend : handleRequest s req = .ok (none, s) := by simp [handleRequest, hm]
    rw [hsend] at h
    cases h
  · obtain ⟨-, ⟨hl', -⟩ | ⟨t', v', hl', hv', hcases⟩⟩ := handle_get_cases hm h
    · simp [hl'] at hl
    · cases hl'.symm.trans hl
      cases hv'.symm.trans hv
      rcases hcases with ⟨-, hsize, -⟩ | ⟨hzero, -⟩
      · exact hsize
      · -- an empty value has the size 1
        rw [hzero]
        omega

theorem Request.Answerable.asks (h : req.Answerable s) : ∃ o, req.Asks o := by
  unfold Request.Answerable at h
  cases hm : req.method <;> simp only [hm] at h
  · exact ⟨_, .get hm h.1⟩
  · obtain ⟨key, valstr, hn⟩ := h
    exact ⟨_, .put hm hn⟩
  · exact ⟨_, .delete hm h⟩
  · exact ⟨_, .head hm⟩
  · by_cases hreset : req.key = str "reset"
    exacts [⟨_, .reset hm h hreset⟩, ⟨_, .wrongTarget hm h hreset⟩]

theorem Serving.perform_isOk (hs : Serving Triple.Filled s) {o : Option Op} (ha : req.Asks o)
    (hover : req.Calls (Impl.EachActivation fun a _ _ => a.NoOverflow) s) :
    ∃ p, s.perform o = .ok p := by
  cases o with
  | none => exact ⟨_, rfl⟩
  | some o =>
    obtain ⟨p, hp⟩ := hs.entries.step_isOk hs.doubled ha.keyed
      (hover o (Request.op_eq_ok.2 ha))
    simp only [Impl.perform, hp]
    exact ⟨_, rfl⟩

theorem Serving.answer (hs : Serving Triple.Filled s) (hans : req.Answerable s)
    (hover : req.Calls (Impl.EachActivation fun a _ _ => a.NoOverflow) s) :
    ∃ res s', handleRequest s req = .ok (some res, s') := by
  obtain ⟨o, ha⟩ := hans.asks
  obtain ⟨⟨r, s'⟩, hr⟩ := hs.perform_isOk ha hover
  have hres : ∃ res, req.respond r = .ok (some res) := by
    rcases perform_cases hr with ⟨rfl, rfl, -⟩ | ⟨o, r, rfl, rfl, hst⟩
    · cases ha with
      | wrongTarget hm => exact ⟨_, Request.respond_wrongTarget hm⟩
      | other hm => simp [Request.Answerable, hm] at hans
    · exact ha.respond_isOk (Impl.step_cases hst) hans
  obtain ⟨res, hres⟩ := hres
  refine ⟨res, s', ?_⟩
  rw [handleRequest_eq, Request.op_eq_ok.2 ha]
  simp only [bind, Except.bind, hr, hres]
  rfl

/-- **Which requests are answered.**  In every state of the server, a request is answered exactly
if it is answerable and its call does not overflow the number of buckets. -/
theorem answered_iff
    (h : server.Reaches (fun _ req => 0 ∉ req.target) (serverCache maxmem loadFactor hasher) H s)
    (hnul : 0 ∉ req.target) :
    (∃ res s', handleRequest s req = .ok (some res, s')) ↔
      req.Answerable s ∧ req.Calls (Impl.EachActivation fun a _ _ => a.NoOverflow) s := by
  have hs : Serving Triple.Filled s :=
    serving_of_reaches (fun _ _ hnul ha => ha.stores_filled hnul) h
  constructor
  · rintro ⟨res, s', hres⟩
    exact ⟨answerable_of_handle hres, (hs.handle (fun o ha => ha.stores_filled hnul) hres).1⟩
  · exact fun ⟨hans, hover⟩ => hs.answer hans hover

/-- A `GET` of a key that has been stored. -/
theorem answered_get : ∃ H s, server.exec (serverCache 100 (.finite 3 2) firstByte)
    [⟨11, .put, str "/a/x"⟩, ⟨11, .post, str "/again"⟩] = some (H, s) ∧
    ∃ res s', handleRequest s ⟨11, .get, str "/a"⟩ = .ok (some res, s') :=
  Machine.exists_exec ⟨_, _, rfl, by decide⟩ (by decide) fun _ s h
    (hD : Request.Answerable s ⟨11, .get, str "/a"⟩ ∧
      Request.Calls (Impl.EachActivation fun a _ _ => a.NoOverflow) s ⟨11, .get, str "/a"⟩) =>
    (answered_iff h (by decide)).2 hD

/-- The server dies of a `PUT` without a value and of a `GET` without a key, and does not answer
other methods. -/
theorem not_answered :
    server.results (serverCache 100 (.finite 3 2) firstByte) [⟨11, .put, str "/abc"⟩] =
      [.error .assertion] ∧
    server.results (serverCache 100 (.finite 3 2) firstByte) [⟨11, .get, str "/"⟩] =
      [.error .assertion] ∧
    server.results (serverCache 100 (.finite 3 2) firstByte) [⟨11, .other, str "/abc"⟩] =
      [.ok none] :=
  ⟨rfl, rfl, rfl⟩

/-! ### Requests of bounded length -/

/-- What the parser of HTTP messages lets through: no NUL, and a length whose successor is a
32-bit number. -/
def Request.Deliverable (req : Request) : Prop :=
  0 ∉ req.target ∧ req.target.length + 1 < 2 ^ 32

instance (req : Request) : Decidable req.Deliverable := inferInstanceAs (Decidable (_ ∧ _))

theorem Triple.Sized.not_dvd {t : Triple} (h : t.Sized) {v : CStr} (hv : t.val = some v) :
    0 < v.strlen ∧ ¬ 2 ^ 32 ∣ v.strlen + 1 := by
  obtain ⟨w, hw, hpos, hsize⟩ := h
  cases hv.symm.trans hw
  refine ⟨hpos, Nat.not_dvd_of_pos_of_lt (Nat.succ_pos _) ?_⟩
  rw [← hsize]
  exact t.size.toNat_lt

theorem handle_get_present (hm : req.method = .get) (hlen : 1 < req.target.length) {t : Triple}
    {v : CStr} (hl : s.lookup req.key = some t) (hv : t.val = some v) (hpos : 0 < v.strlen)
    (hsize : ¬ 2 ^ 32 ∣ v.strlen + 1) :
    handleRequest s req = .ok (some (req.showPair .ok req.key v), s.touchKey req.key) := by
  have hst : s.perform (some (.get req.key 0)) = .ok (some (.get req.key 0,
      .get (some v) (UInt32.ofNat (v.strlen + 1))), s.touchKey req.key) := by
    simp only [Impl.perform, Impl.step, Impl.get_of_lookup hl hv]
    rfl
  have hres : req.respond (some (.get req.key 0,
      .get (some v) (UInt32.ofNat (v.strlen + 1)))) = .ok (some (req.showPair .ok req.key v)) := by
    rw [Request.respond_value hpos, assertThat_of (ofNat_pos_iff.2 hsize)]
    rfl
  rw [handleRequest_eq, Request.op_eq_ok.2 (.get hm hlen)]
  simp only [bind, Except.bind, hst, hres]
  rfl

/-- **No value is null or empty.**  In every state of the server that requests of bounded length
lead to, every entry but those of the empty key has a string that is not empty, with its size; a
request whose target is accepted does not end in a fault, and a `GET` of a key that the search
finds answers its value. -/
theorem served
    (h : server.Reaches (fun _ req => req.Deliverable) (serverCache maxmem loadFactor hasher) H s) :
    s.EachEntry Triple.Sized ∧ ∀ (req : Request) (o : Option Op), req.op = .ok o →
      req.Calls (Impl.EachActivation fun a _ _ => a.NoOverflow) s →
      (∃ p, handleRequest s req = .ok p) ∧
      (req.method = .get → ∀ t, s.lookup req.key = some t → ∃ v s', t.val = some v ∧
        handleRequest s req = .ok (some (req.showPair .ok req.key v), s')) := by
  have hs : Serving Triple.Sized s :=
    serving_of_reaches (fun _ _ hd ha => ha.stores_sized hd.1 hd.2) h
  have hfilled : Serving Triple.Filled s :=
    ⟨hs.doubled, hs.hasEvictor, hs.entries.imp fun _ => Triple.Sized.filled⟩
  refine ⟨hs.entries, fun req o hop hover => ?_⟩
  have ha := Request.op_eq_ok.1 hop
  -- a value that is found for a key of a request has a size other than 0
  have hfound : 1 < req.target.length → ∀ t, s.lookup req.key = some t → t.Sized :=
    fun hlen t hl => hs.entries.of_lookup hl (Request.key_ne_nil hlen)
  constructor
  · by_cases hm : req.method = .other
    · exact ⟨(none, s), by simp [handleRequest, hm]⟩
    · have hans : req.Answerable s :=
        ha.answerable hm fun _ hlen t hl v hv => ((hfound hlen t hl).not_dvd hv).2
      obtain ⟨res, s', hres⟩ := hfilled.answer hans hover
      exact ⟨_, hres⟩
  · intro hm t hl
    have hlen := (ha.eq_get hm).1
    obtain ⟨v, hv, -⟩ := hfound hlen t hl
    obtain ⟨hpos, hsize⟩ := (hfound hlen t hl).not_dvd hv
    exact ⟨v, _, hv, handle_get_present hm hlen hl hv hpos hsize⟩

/-- A reset leaves null pointers, which the requests that follow do not meet: the `GET` of `b`
answers the value `y`. -/
theorem served_reset : ∃ H s, server.exec (serverCache 100 (.finite 3 2) firstByte)
    [⟨11, .put, str "/a/x"⟩, ⟨11, .post, str "/reset"⟩, ⟨11, .put, str "/b/y"⟩] = some (H, s) ∧
    ∃ s', handleRequest s ⟨11, .get, str "/b"⟩ = .ok (some (Request.showPair
      ⟨11, .get, str "/b"⟩ .ok (str "b") (CStr.ofBytes (str "y"))), s') :=
  Machine.exists_exec ⟨_, _, rfl, by decide⟩ (by decide) fun _ s h
    (hD : Request.Calls (Impl.EachActivation fun a _ _ => a.NoOverflow) s ⟨11, .get, str "/b"⟩ ∧
      s.lookup (str "b") = some ⟨str "b", 2, text "y"⟩) =>
    have ⟨_, s', hv, hres⟩ :=
      ((served h).2 ⟨11, .get, str "/b"⟩ (some (.get (str "b") 0)) rfl hD.1).2 rfl _ hD.2
    ⟨s', Option.some.inj hv ▸ hres⟩

end CrankItUp
