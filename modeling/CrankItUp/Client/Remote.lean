import CrankItUp.Client.Body
import CrankItUp.Client.Target
import CrankItUp.Machine.Omission
import CrankItUp.Store.Refine
import CrankItUp.Stream.Decimal

/-!
# The cache behind the network

The client has the interface of the library cache, and answers its calls with those of the server.

* `Client.call` : a call of the client, from the request to what it reads from the response.
* `Answer` : what a call of the client tells.  `get` does not write the size of the value, and
  `set` does not say what became of it.
* `Op.Sendable` : the keys and values that are sent and read as they are.  `Op.sent` is the call
  that the server makes then.
* `Client.results_eq_library` : a client of the server sees what a client of the library cache
  sees; `Client.results_eq_map` : and what a client of the map sees, if the calls are regular.
-/

namespace CrankItUp

/-- What a call of the client tells. -/
inductive Answer where
  | set
  | get (val : ValType)
  | del (deleted : Bool)
  | spaceUsed (size : UInt32)
  | reset
  deriving DecidableEq

/-- What is left of the result of a call of the library cache. -/
def Result.answer : Result → Answer
  | .set _ => .set
  | .get val _ => .get val
  | .del deleted => .del deleted
  | .spaceUsed size => .spaceUsed size
  | .reset => .reset

namespace Client

/-- The request of `reset`. -/
def resetRequest : Request := ⟨11, .post, str "/reset"⟩

/-- The request of `space_used`. -/
def spaceRequest : Request := ⟨11, .head, str "/b"⟩

/-- The result of `del`, given the body of the response. -/
def delResult (s : Bytes) : Bool := s.take 1 ≠ str "f"

/-- The result of `space_used`.  The pointer to the value of the field is printed as a string, so
that the end of the line, and the memory `behind` it, are printed as well. -/
def spaceResult (behind : Bytes) (res : Response) : Option UInt32 :=
  (res.fields.find? fun f => f.1 = str "Space-Used").map fun f =>
    readUnsigned (f.2 ++ str "\r\n" ++ behind)

/-- A call of the client, with the server at the other end; the result is `none` if the call does
not return one.  A null pointer cannot be appended to the target. -/
def call (behind : Response → Bytes) (s : Impl LRU) :
    Op → Except Fault (Option Answer × Impl LRU)
  | .set _ none _ => throw .nullStrlen
  | .set key (some val) _ => do
    let (res, s) ← handleRequest s (setRequest key val)
    return (res.map fun _ => .set, s)
  | .get key valSize => do
    let (res, s) ← handleRequest s (getRequest key)
    return (res.bind fun res => (get res.body valSize).map fun r => .get r.1, s)
  | .del key => do
    let (res, s) ← handleRequest s (delRequest key)
    return (res.map fun res => .del (delResult res.body), s)
  | .spaceUsed => do
    let (res, s) ← handleRequest s spaceRequest
    return (res.bind fun res => (spaceResult (behind res) res).map .spaceUsed, s)
  | .reset => do
    let (res, s) ← handleRequest s resetRequest
    return (res.map fun _ => .reset, s)

/-- The cache as the client shows it. -/
def remote (behind : Response → Bytes) : Machine (Impl LRU) Op (Option Answer) Fault :=
  ⟨call behind⟩

/-- What is sent and read as it is: bytes that a target may have, which the client reads in one
piece. -/
structure Sendable (b : Bytes) : Prop where
  ne_nil : b ≠ []
  plain : Plain b
  visible : ∀ c ∈ b, 0x20 < c ∧ c ≠ 0x7F

instance (b : Bytes) : Decidable (Sendable b) :=
  letI : Decidable (∀ c ∈ b, 0x20 < c ∧ c ≠ 0x7F) := List.decidableBAll _ b
  decidable_of_iff (b ≠ [] ∧ Plain b ∧ ∀ c ∈ b, 0x20 < c ∧ c ≠ 0x7F)
    ⟨fun h => ⟨h.1, h.2.1, h.2.2⟩, fun h => ⟨h.ne_nil, h.plain, h.visible⟩⟩

end Client

/-- The key and the value that the call names can be sent, and the key has no slash. -/
def Op.Sendable : Op → Prop
  | .set key val _ => Client.Sendable key ∧ 0x2F ∉ key ∧ ∃ v ∈ val, Client.Sendable v.shown
  | .get key _ | .del key => Client.Sendable key ∧ 0x2F ∉ key
  | .spaceUsed | .reset => True

instance (o : Op) : Decidable o.Sendable := by
  cases o <;> unfold Op.Sendable <;> infer_instance

/-- The call that the server makes: the value ends at its first NUL, and its size is the one of
the string. -/
def Op.sent : Op → Op
  | .set key (some v) _ => putOp key v.shown
  | .set key none size => .set key none size
  | .get key _ => .get key 0
  | .del key => .del key
  | .spaceUsed => .spaceUsed
  | .reset => .reset

/-- The value is a string that can be sent. -/
def Triple.Sent (t : Triple) : Prop := ∃ b, t.val = some (CStr.ofBytes b) ∧ Client.Sendable b

namespace Client

variable {s s' : Impl LRU} {key : KeyType} {b : Bytes} {v : CStr} {o : Op} {r : Result}
  {req : Request} {behind : Response → Bytes}

theorem Sendable.notMem_zero (h : Sendable b) : 0 ∉ b := fun h0 => by
  have := (h.visible 0 h0).1
  simp at this

theorem handleRequest_of_op (h : req.op = .ok (some o)) : handleRequest s req = (do
    let (r, s') ← s.step o
    let res ← req.respond (some (o, r))
    return (res, s')) := by
  rw [handleRequest_eq, h, ok_bind]
  simp only [Impl.perform]
  cases s.step o <;> rfl

/-- A call of the client is a call of the cache, if the response to it can be read. -/
theorem handleRequest_bind (h : req.op = .ok (some o)) {f : Option Response → Option Answer}
    (hread : ∀ r s', s.step o = .ok (r, s') →
      ∃ res, req.respond (some (o, r)) = .ok res ∧ f res = some r.answer) :
    (handleRequest s req >>= fun p => pure (f p.1, p.2)) =
      through (fun r => some r.answer) (s.step o) := by
  rw [handleRequest_of_op h]
  cases hst : s.step o with
  | error e => rfl
  | ok p =>
    obtain ⟨r, s'⟩ := p
    obtain ⟨res, hres, hf⟩ := hread r s' hst
    simp only [ok_bind, hres]
    exact congrArg (fun x => Except.ok (x, s')) hf

/-! ### Reading the responses -/

theorem op_setRequest (hkey : Sendable key) (hno : 0x2F ∉ key) (hv : Sendable v.shown) :
    (setRequest key v).op = .ok (some (putOp key v.shown)) :=
  Request.op_eq_ok.2 (.put rfl ((names_setRequest_iff hkey.ne_nil hv.ne_nil).2 hno))

theorem get_showPair {status : Status} (hkey : Sendable key) (hb : Sendable b) (n : UInt32) :
    get (req.showPair status key (CStr.ofBytes b)).body n = some (some (CStr.ofBytes b), n) := by
  have hshown := CStr.shown_ofBytes hb.notMem_zero
  have hread : Readable key (CStr.ofBytes b).shown := by
    rw [hshown]
    exact (readable_iff_of_plain hkey.ne_nil hkey.plain hb.notMem_zero).2 hb.plain
  have hne : (CStr.ofBytes b).shown ≠ [] := by
    rw [hshown]
    exact hb.ne_nil
  have h := (get_pairBody_iff key hne n n).2 ⟨hread, rfl⟩
  rwa [hshown] at h

theorem respond_sent (hb : Sendable b) (n : UInt32) :
    req.respond (some (.get key n, .get (some (CStr.ofBytes b))
      (UInt32.ofNat ((CStr.ofBytes b).strlen + 1)))) =
      .ok (some (req.showPair .ok key (CStr.ofBytes b))) := by
  have hlen : (CStr.ofBytes b).strlen = b.length := by
    rw [← CStr.length_shown, CStr.shown_ofBytes hb.notMem_zero]
  have hpos : 0 < (CStr.ofBytes b).strlen := by
    rw [hlen]
    exact List.length_pos_iff.2 hb.ne_nil
  have hle : b.length ≤ 255 := hb.plain.1
  have hsize : ¬ 2 ^ 32 ∣ (CStr.ofBytes b).strlen + 1 := by
    rw [hlen]
    omega
  rw [Request.respond_value hpos, assertThat_of (ofNat_pos_iff.2 hsize)]
  rfl

theorem str_toString (n : ℕ) : str (toString n) = decimal n := by
  rw [str, Nat.toString_eq_ofList_toDigits, String.toList_ofList]
  rfl

theorem spaceResult_eq {res : Response} {fields : List (Bytes × Bytes)} {size : UInt32}
    (hres : res.fields = fields ++ [(str "Space-Used", str (toString size.toNat))])
    (hno : ∀ f ∈ fields, f.1 ≠ str "Space-Used") (behind : Bytes) :
    spaceResult behind res = some size := by
  have hnone : fields.find? (fun f => f.1 = str "Space-Used") = none :=
    List.find?_eq_none.2 fun f hf => by simpa using hno f hf
  rw [spaceResult, hres, List.find?_append, hnone, Option.none_or, List.find?_singleton,
    if_pos (by simp), Option.map_some, str_toString, List.append_assoc]
  exact congrArg some (readUnsigned_decimal size rfl _)

/-- **A call of the client** is the call that is sent, of the cache at the other end. -/
theorem call_eq (hs : s.EachEntry Triple.Sent) (ho : o.Sendable) :
    call behind s o = through (fun r => some r.answer) (s.step o.sent) := by
  cases o with
  | set key val size =>
    obtain ⟨hkey, hno, v, hval, hv⟩ := ho
    cases hval
    refine handleRequest_bind (op_setRequest hkey hno hv) fun r s' hst => ?_
    cases Impl.step_cases hst with
    | set => exact ⟨_, rfl, rfl⟩
  | get key n =>
    obtain ⟨hkey, hno⟩ := ho
    refine handleRequest_bind (f := fun res => res.bind fun res =>
      (get res.body n).map fun r => .get r.1) (op_getRequest hkey.ne_nil) fun r s' hst => ?_
    cases Impl.step_cases hst with
    | get hget =>
      obtain ⟨-, ⟨-, rfl, -, -⟩ | ⟨t, v, hl, hv, rfl, rfl, -⟩⟩ := Impl.get_cases hget
      · exact ⟨_, rfl, rfl⟩
      · obtain ⟨b, hb, hsend⟩ := hs.of_lookup hl hkey.ne_nil
        cases hv.symm.trans hb
        refine ⟨_, respond_sent hsend 0, ?_⟩
        rw [Option.bind_some, get_showPair hkey hsend n]
        rfl
  | del key =>
    obtain ⟨hkey, hno⟩ := ho
    refine handleRequest_bind (f := fun res => res.map fun res => .del (delResult res.body))
      (op_delRequest hkey.ne_nil) fun r s' hst => ?_
    cases Impl.step_cases hst with
    | @del _ deleted => cases deleted <;> exact ⟨_, rfl, rfl⟩
  | spaceUsed =>
    refine handleRequest_bind (f := fun res => res.bind fun res =>
      (spaceResult (behind res) res).map .spaceUsed) (Request.op_eq_ok.2 (.head rfl))
      fun r s' hst => ?_
    cases Impl.step_cases hst with
    | spaceUsed =>
      refine ⟨_, rfl, ?_⟩
      rw [Option.bind_some, spaceResult_eq rfl (by decide)]
      rfl
  | reset =>
    refine handleRequest_bind (f := fun res => res.map fun _ => .reset)
      (Request.op_eq_ok.2 (.reset rfl (by decide) rfl)) fun r s' hst => ?_
    cases Impl.step_cases hst with
    | reset => exact ⟨_, rfl, rfl⟩

/-! ### Runs -/

theorem stores_sent (ho : o.Sendable) : o.sent.Stores Triple.Sent := by
  cases o with
  | set key val size =>
    obtain ⟨-, -, v, hval, hv⟩ := ho
    cases hval
    exact ⟨v.shown, congrArg some (strcpy_eq hv.notMem_zero), hv⟩
  | get | del | spaceUsed | reset => trivial

theorem remote_results (hs : s.EachEntry Triple.Sent) {os : List Op} (hos : ∀ o ∈ os, o.Sendable) :
    (remote behind).results s os =
      ((library LRU).results s (os.map Op.sent)).map (Except.map fun r => some r.answer) := by
  rw [← Machine.results_adapt]
  refine Machine.results_congr (I := fun s => s.EachEntry Triple.Sent)
    (fun s o hs (ho : o.Sendable) => call_eq hs ho) (fun s o r s' hs ho hst => ?_) os s hs hos
  obtain ⟨⟨r', t⟩, hst', hp⟩ := map_eq_ok.1 hst
  cases hp
  exact hs.call (stores_sent ho) (Impl.step_cases hst')

end Client

end CrankItUp
