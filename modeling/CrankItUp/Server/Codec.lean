import CrankItUp.Server.Basic
import Mathlib.Data.List.TakeWhile

/-!
# A request is at most one call of the cache

Every branch of `handleRequest` reads a call from the target, makes it, and writes its result
into a response.

* `Request.pair` : the key and the value that the target of a `PUT` names.
* `Request.op` : the call that a request asks for, if there is one; the assertions on the target
  are made here.  `Request.Names` and `Request.Asks` say what these two read.
* `Request.respond` : the response, given the call and its result.
* `handleRequest_eq` : `handleRequest` reads, calls, and writes.
* `library_reaches` : a run of the server is a run of its cache.
-/

namespace CrankItUp

/-- The copy of a value that `strcpy` makes; it stops at the first NUL. -/
def strcpy (valstr : Bytes) : CStr := CStr.ofBytes (valstr.takeWhile (· ≠ 0))

/-- The size that is passed to the cache for a value. -/
def storedSize (valstr : Bytes) : UInt32 := UInt32.ofNat (valstr.length + 1)

/-- The call that stores a value. -/
def putOp (key : KeyType) (valstr : Bytes) : Op :=
  .set key (some (strcpy valstr)) (storedSize valstr)

namespace Request

variable (req : Request)

/-- The key and the value that the target of a `PUT` names. -/
def pair : Except Fault (KeyType × Bytes) := do
  let uri ← substr req.target 1
  match uri.idxOf? 0x2F with
  | none => throw .assertion
  | some sepIndex =>
    assertThat (uri.take sepIndex ≠ [])
    let valstr ← substr uri (sepIndex + 1)
    assertThat (valstr ≠ [])
    return (uri.take sepIndex, valstr)

/-- The call of the cache that the request asks for. -/
def op : Except Fault (Option Op) :=
  match req.method with
  | .get => do
    assertThat (1 < req.target.length)
    return some (.get req.key 0)
  | .put => do
    let (key, valstr) ← req.pair
    return some (putOp key valstr)
  | .delete => do
    assertThat (1 < req.target.length)
    return some (.del req.key)
  | .head => return some .spaceUsed
  | .post => do
    assertThat (1 < req.target.length)
    if req.key = str "reset" then return some .reset else return none
  | .other => return none

/-- The target names a key and a value: the key goes up to the first slash after the leading one,
and the value is the rest. -/
structure Names (key : KeyType) (valstr : Bytes) : Prop where
  split : req.target.drop 1 = key ++ 0x2F :: valstr
  no_slash : 0x2F ∉ key
  key_ne : key ≠ []
  val_ne : valstr ≠ []

/-- The response that shows a key and its value. -/
def showPair (status : Status) (key : KeyType) (val : CStr) : Response :=
  (((Response.new req.version).result status).set contentType applicationJson).write
    (pairBody key val)

/-- The response of a `GET` for a key that is not there. -/
def notFound : Response :=
  (((Response.new req.version).result .notFound).set contentType (str "text/plain")).write
    (str "Key not found\r\n")

/-- The response to the request, given the call that it has made and the result. -/
def respond : Option (Op × Result) → Except Fault (Option Response)
  | some (.get key _, .get (some val) size) =>
    if 0 < val.strlen then do
      assertThat (0 < size)
      return some (req.showPair .ok key val)
    else return some (Response.new req.version)
  | some (.get _ _, .get none _) => return some req.notFound
  | some (.set key (some val) _, .set _) => return some (req.showPair .created key val)
  | some (.del _, .del deleted) =>
    return some ((((Response.new req.version).set versionField (str "1.1")).set contentType
      applicationJson).write (if deleted then str "true\n" else str "false\n"))
  | some (.spaceUsed, .spaceUsed size) =>
    return some ((((Response.new req.version).set contentType applicationJson).result
      .accepted).insert (str "Space-Used") (str (toString size.toNat)))
  | some (.reset, .reset) =>
    return some (((((Response.new req.version).set contentType applicationJson).result .ok).set
      versionField (str "1.1")).write (str "Cache Reset" ++ str "\n"))
  | none =>
    if req.method = .post then
      return some (((((Response.new req.version).result .notFound).set versionField
        (str "1.1")).set contentType applicationJson).write
          (str "Incorrect Target reset not performed." ++ str "\n"))
    else return none
  | _ => return none

end Request

/-- Make the call, if there is one. -/
def Impl.perform (s : Impl LRU) : Option Op → Except Fault (Option (Op × Result) × Impl LRU)
  | some o => (s.step o).map fun (r, s) => (some (o, r), s)
  | none => .ok (none, s)

variable {s s' : Impl LRU} {req : Request} {res : Option Response}

theorem assertThat_of {p : Prop} [Decidable p] (h : p) : assertThat p = .ok () := if_pos h

theorem assertThat_eq_ok {p : Prop} [Decidable p] {u : Unit} : assertThat p = .ok u ↔ p := by
  by_cases h : p <;> simp [assertThat, h]

theorem substr_one (h : 1 ≤ req.target.length) : substr req.target 1 = .ok req.key := if_pos h

/-! ### Responses -/

namespace Request

variable {key : KeyType} {n size : UInt32} {v : CStr}

theorem respond_value (hv : 0 < v.strlen) :
    req.respond (some (.get key n, .get (some v) size)) = (do
      assertThat (0 < size)
      return some (req.showPair .ok key v)) :=
  if_pos hv

theorem respond_empty (hv : ¬ 0 < v.strlen) :
    req.respond (some (.get key n, .get (some v) size)) = .ok (some (Response.new req.version)) :=
  if_neg hv

theorem respond_wrongTarget (hm : req.method = .post) :
    req.respond none = .ok (some (((((Response.new req.version).result .notFound).set versionField
      (str "1.1")).set contentType applicationJson).write
        (str "Incorrect Target reset not performed." ++ str "\n"))) :=
  if_pos hm

theorem respond_other (hm : req.method ≠ .post) : req.respond none = .ok none := if_neg hm

end Request

/-! ### Strings -/

namespace CStr

theorem strlen_ofBytes {b : Bytes} (h : 0 ∉ b) : (ofBytes b).strlen = b.length := by
  rw [strlen, ofBytes, List.idxOf_append_of_notMem h]
  simp

theorem shown_ofBytes {b : Bytes} (h : 0 ∉ b) : (ofBytes b).shown = b := by
  rw [shown, strlen_ofBytes h]
  exact List.take_left

theorem length_shown (v : CStr) : v.shown.length = v.strlen := by
  rw [shown, List.length_take, Nat.min_eq_left]
  exact List.idxOf_le_length

theorem notMem_shown (v : CStr) : 0 ∉ v.shown := by
  rw [shown, List.mem_take_iff_idxOf_lt v.terminated]
  exact Nat.lt_irrefl _

end CStr

theorem strcpy_eq {valstr : Bytes} (h : 0 ∉ valstr) : strcpy valstr = CStr.ofBytes valstr := by
  rw [strcpy, List.takeWhile_eq_self_iff.2]
  intro b hb
  exact decide_eq_true fun h0 => h (h0 ▸ hb)

theorem strlen_strcpy {valstr : Bytes} (h : 0 ∉ valstr) :
    (strcpy valstr).strlen = valstr.length := by
  rw [strcpy_eq h, CStr.strlen_ofBytes h]

/-! ### The target of a `PUT` -/

theorem idxOf?_append_cons {l m : Bytes} {a : UInt8} (h : a ∉ l) :
    (l ++ a :: m).idxOf? a = some l.length := by
  induction l with
  | nil => simp [List.idxOf?_cons]
  | cons b l ih =>
    have hb : b ≠ a := fun hb => h (hb ▸ List.mem_cons_self)
    simp [List.idxOf?_cons, hb, ih fun hl => h (List.mem_cons_of_mem _ hl)]

theorem Request.pair_of_split {key : KeyType} {valstr : Bytes}
    (h : req.target.drop 1 = key ++ 0x2F :: valstr) (hno : 0x2F ∉ key) :
    req.pair = if key ≠ [] ∧ valstr ≠ [] then .ok (key, valstr) else .error .assertion := by
  have hlen : 1 ≤ req.target.length := by
    by_contra hlen
    rw [List.drop_eq_nil_of_le (by omega)] at h
    simp at h
  have hsub : substr (key ++ 0x2F :: valstr) (key.length + 1) = .ok valstr := by
    refine substr_eq_ok.2 ⟨?_, ?_⟩
    · simp
    · rw [← List.drop_drop, List.drop_left]
      rfl
  simp only [Request.pair, substr_eq_ok.2 ⟨hlen, rfl⟩, h, bind, Except.bind,
    idxOf?_append_cons hno, List.take_left, hsub, assertThat]
  by_cases hk : key = []
  · simp [hk]
  · by_cases hv : valstr = [] <;> simp [hk, hv, pure, Except.pure]

theorem Request.pair_ne_ok_of_not_mem (h : 0x2F ∉ req.target.drop 1) (p : KeyType × Bytes) :
    req.pair ≠ .ok p := by
  intro hp
  obtain ⟨uri, huri, hp⟩ := bind_eq_ok.1 hp
  obtain ⟨-, rfl⟩ := substr_eq_ok.1 huri
  rw [List.idxOf?_eq_none_iff.2 h] at hp
  cases hp

/-- **The server reads a key and a value** exactly from the targets that name them. -/
theorem Request.pair_eq_ok {key : KeyType} {valstr : Bytes} :
    req.pair = .ok (key, valstr) ↔ req.Names key valstr := by
  constructor
  · intro hp
    have hmem : 0x2F ∈ req.target.drop 1 := by
      by_contra hmem
      exact pair_ne_ok_of_not_mem hmem _ hp
    obtain ⟨key', valstr', hsplit, hno⟩ := List.eq_append_cons_of_mem hmem
    rw [pair_of_split hsplit hno] at hp
    split at hp
    · rename_i hne
      cases hp
      exact ⟨hsplit, hno, hne.1, hne.2⟩
    · cases hp
  · rintro ⟨hsplit, hno, hkey, hval⟩
    rw [pair_of_split hsplit hno, if_pos ⟨hkey, hval⟩]

/-- The calls that a request can ask for. -/
inductive Request.Asks (req : Request) : Option Op → Prop
  | get : req.method = .get → 1 < req.target.length → Asks req (some (.get req.key 0))
  | put {key : KeyType} {valstr : Bytes} : req.method = .put → req.Names key valstr →
      Asks req (some (putOp key valstr))
  | delete : req.method = .delete → 1 < req.target.length → Asks req (some (.del req.key))
  | head : req.method = .head → Asks req (some .spaceUsed)
  | reset : req.method = .post → 1 < req.target.length → req.key = str "reset" →
      Asks req (some .reset)
  | wrongTarget : req.method = .post → 1 < req.target.length → req.key ≠ str "reset" →
      Asks req none
  | other : req.method = .other → Asks req none

theorem Request.op_eq_ok {o : Option Op} : req.op = .ok o ↔ req.Asks o := by
  constructor
  · intro h
    unfold op at h
    cases hm : req.method with
    | get =>
      simp only [hm, bind_eq_ok, assertThat_eq_ok] at h
      obtain ⟨_, hlen, h⟩ := h
      cases h
      exact .get hm hlen
    | put =>
      simp only [hm, bind_eq_ok] at h
      obtain ⟨⟨key, valstr⟩, hp, h⟩ := h
      cases h
      exact .put hm (pair_eq_ok.1 hp)
    | delete =>
      simp only [hm, bind_eq_ok, assertThat_eq_ok] at h
      obtain ⟨_, hlen, h⟩ := h
      cases h
      exact .delete hm hlen
    | head => simp only [hm] at h; cases h; exact .head hm
    | post =>
      simp only [hm, bind_eq_ok, assertThat_eq_ok] at h
      obtain ⟨_, hlen, h⟩ := h
      split at h
      · rename_i hreset
        cases h
        exact .reset hm hlen hreset
      · rename_i hreset
        cases h
        exact .wrongTarget hm hlen hreset
    | other => simp only [hm] at h; cases h; exact .other hm
  · rintro (⟨hm, hlen⟩ | ⟨hm, hn⟩ | ⟨hm, hlen⟩ | hm | ⟨hm, hlen, hreset⟩ | ⟨hm, hlen, hreset⟩ | hm)
    · simp only [op, hm, assertThat_of hlen]; rfl
    · simp only [op, hm, pair_eq_ok.2 hn]; rfl
    · simp only [op, hm, assertThat_of hlen]; rfl
    · simp only [op, hm]; rfl
    · simp only [op, hm, assertThat_of hlen, hreset]; rfl
    · simp only [op, hm, assertThat_of hlen, hreset]; rfl
    · simp only [op, hm]; rfl

/-! ### The branches -/

theorem handleGet_eq : handleGet s req = (do
    assertThat (1 < req.target.length)
    let (v, n, s') ← s.get req.key 0
    let res ← req.respond (some (.get req.key 0, .get v n))
    return (res, s')) := by
  by_cases hlen : 1 < req.target.length
  · simp only [handleGet, assertThat_of hlen, substr_one (Nat.le_of_lt hlen), bind, Except.bind]
    cases hget : s.get req.key 0 with
    | error f => rfl
    | ok p =>
      obtain ⟨v, n, s'⟩ := p
      cases v with
      | none => rfl
      | some v =>
        by_cases hv : 0 < v.strlen
        · simp only [Request.respond_value hv, hv, ↓reduceIte]
          cases assertThat (0 < n) <;> rfl
        · simp only [Request.respond_empty hv, hv, ↓reduceIte]
  · simp only [handleGet, assertThat, hlen, ↓reduceIte]
    rfl

theorem handlePut_eq : handlePut s req = (do
    let (key, valstr) ← req.pair
    let (es, s') ← s.set key (some (strcpy valstr)) (storedSize valstr)
    let res ← req.respond (some (putOp key valstr, .set es))
    return (res, s')) := by
  simp only [handlePut, Request.pair, bind_assoc]
  refine bind_congr fun uri => ?_
  cases hsep : uri.idxOf? 0x2F with
  | none => rfl
  | some i =>
    simp only [bind_assoc, pure_bind]
    refine bind_congr fun _ => bind_congr fun valstr => bind_congr fun _ => ?_
    rw [assertThat_of (Nat.succ_pos valstr.length)]
    rfl

theorem handleDelete_eq : handleDelete s req = (do
    assertThat (1 < req.target.length)
    let (b, s') ← s.del req.key
    let res ← req.respond (some (.del req.key, .del b))
    return (res, s')) := by
  by_cases hlen : 1 < req.target.length
  · simp only [handleDelete, assertThat_of hlen, substr_one (Nat.le_of_lt hlen), bind, Except.bind]
    cases hdel : s.del req.key with
    | error f => rfl
    | ok p =>
      obtain ⟨b, s'⟩ := p
      cases b <;> rfl
  · simp only [handleDelete, assertThat, hlen, ↓reduceIte]
    rfl

theorem handlePost_eq (hm : req.method = .post) : handlePost s req = (do
    assertThat (1 < req.target.length)
    if req.key = str "reset" then do
      let res ← req.respond (some (.reset, .reset))
      return (res, s.reset)
    else do
      let res ← req.respond none
      return (res, s)) := by
  by_cases hlen : 1 < req.target.length
  · simp only [handlePost, assertThat_of hlen, substr_one (Nat.le_of_lt hlen), bind, Except.bind]
    by_cases hreset : req.key = str "reset"
    · simp only [hreset, ↓reduceIte]
      rfl
    · simp only [hreset, ↓reduceIte, Request.respond_wrongTarget hm]
  · simp only [handlePost, assertThat, hlen, ↓reduceIte]
    rfl

/-- **Read, call, write.** -/
theorem handleRequest_eq (s : Impl LRU) (req : Request) : handleRequest s req = (do
    let o ← req.op
    let (r, s') ← s.perform o
    let res ← req.respond r
    return (res, s')) := by
  unfold handleRequest Request.op
  cases hm : req.method with
  | get =>
    simp only [handleGet_eq, bind_assoc, pure_bind]
    refine bind_congr fun _ => ?_
    simp only [Impl.perform, Impl.step]
    cases s.get req.key 0 <;> rfl
  | put =>
    simp only [handlePut_eq, bind_assoc, pure_bind]
    refine bind_congr fun p => ?_
    simp only [putOp, Impl.perform, Impl.step]
    cases s.set p.1 (some (strcpy p.2)) (storedSize p.2) <;> rfl
  | delete =>
    simp only [handleDelete_eq, bind_assoc, pure_bind]
    refine bind_congr fun _ => ?_
    simp only [Impl.perform, Impl.step]
    cases s.del req.key <;> rfl
  | head => rfl
  | post =>
    simp only [handlePost_eq hm, bind_assoc]
    refine bind_congr fun _ => ?_
    split <;> rfl
  | other =>
    have hres : req.respond none = .ok none := Request.respond_other (by simp [hm])
    simp only [Impl.perform, bind, Except.bind, pure, Except.pure, hres]

/-! ### Requests and calls -/

/-- The request makes a call only if the call meets the condition. -/
def Request.Calls (ok : Impl LRU → Op → Prop) (s : Impl LRU) (req : Request) : Prop :=
  ∀ o, req.op = .ok (some o) → ok s o

instance (ok : Impl LRU → Op → Prop) [∀ s o, Decidable (ok s o)] (s : Impl LRU)
    (req : Request) : Decidable (Request.Calls ok s req) :=
  match h : req.op with
  | .ok (some o) => decidable_of_iff (ok s o) (by simp [Request.Calls, h])
  | .ok none | .error _ => isTrue fun _ ho => by rw [h] at ho; cases ho

theorem perform_cases {o : Option Op} {r : Option (Op × Result)} (h : s.perform o = .ok (r, s')) :
    (o = none ∧ r = none ∧ s' = s) ∨
      ∃ o' r', o = some o' ∧ r = some (o', r') ∧ s.step o' = .ok (r', s') := by
  cases o with
  | none => cases h; exact .inl ⟨rfl, rfl, rfl⟩
  | some o =>
    simp only [Impl.perform] at h
    cases hst : s.step o with
    | error f => rw [hst] at h; cases h
    | ok p =>
      rw [hst] at h
      cases h
      exact .inr ⟨o, p.1, rfl, rfl, hst⟩

theorem op_of_handleRequest (h : handleRequest s req = .ok (res, s')) :
    ∃ o r, req.op = .ok o ∧ s.perform o = .ok (r, s') ∧ req.respond r = .ok res := by
  rw [handleRequest_eq, bind_eq_ok] at h
  obtain ⟨o, ho, h⟩ := h
  obtain ⟨⟨r, a⟩, hr, h⟩ := bind_eq_ok.1 h
  obtain ⟨_, hres, h⟩ := bind_eq_ok.1 h
  cases h
  exact ⟨o, r, ho, hr, hres⟩

/-- **A run of the server is a run of its cache**, in which some requests make no call. -/
theorem library_reaches {ok : Impl LRU → Op → Prop} {s₀ : Impl LRU}
    {H : List (Request × Option Response)}
    (h : server.Reaches (Request.Calls ok) s₀ H s) :
    ∃ H', (library LRU).Reaches ok s₀ H' s := by
  induction h with
  | start => exact ⟨[], .start⟩
  | call _ ho hst ih =>
    obtain ⟨H', hH'⟩ := ih
    obtain ⟨o, r, hop, hr, -⟩ := op_of_handleRequest hst
    rcases perform_cases hr with ⟨-, -, rfl⟩ | ⟨o', r', rfl, -, hst'⟩
    exacts [⟨H', hH'⟩, ⟨_, .call hH' (ho o' hop) hst'⟩]

end CrankItUp
