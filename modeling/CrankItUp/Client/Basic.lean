import CrankItUp.Machine.Loop
import CrankItUp.Server.Basic
import CrankItUp.Stream.Basic

/-!
# The client

The cache object of the client sends its calls to the server as HTTP requests, and reads the result
of `get` from the text of the response.

* `Client.setRequest`, `Client.getRequest`, `Client.delRequest` : the requests that are sent.
* `Client.get` : the result of `get`, read from the body of the response.  The pointer that the
  code returns is to a local string; what is modelled is the text that it points to until then.
* `Client.skip_eq_some_iff` : the search for the opening brace ends exactly if there is one.
* `Client.get_returns_iff` : `get` returns exactly if the body has a brace, or begins with a `K`.
-/

namespace CrankItUp

namespace Client

/-- The request of `get`. -/
def getRequest (key : KeyType) : Request := ⟨11, .get, 0x2F :: key⟩

/-- The request of `set`; a `const char*` is appended to a string up to its first NUL. -/
def setRequest (key : KeyType) (val : CStr) : Request :=
  ⟨11, .put, 0x2F :: (key ++ 0x2F :: val.shown)⟩

/-- The request of `del`. -/
def delRequest (key : KeyType) : Request := ⟨11, .delete, 0x2F :: key⟩

/-! ### Reading the response of `get` -/

/-- `BUFFERSIZE`. -/
def bufferSize : ℕ := 256

/-- `'{'`. -/
def brace : UInt8 := 0x7B

/-- `'"'`. -/
def quote : UInt8 := 0x22

/-- Read until the opening bracket appears. -/
def skipLoop : Loop (IStream UInt8) Bool Unit where
  body ss :=
    let (c, ss) := ss.peek
    if c ≠ some brace then
      -- the byte is printed before it is ignored
      let (_, ss) := ss.peek
      .ok (true, ss.ignore)
    else .ok (false, ss)
  again := id

/-- The stream at the opening bracket; `none` if the loop does not end. -/
def skip (ss : IStream UInt8) : Option (IStream UInt8) :=
  match skipLoop.run () (ss.rest.length + 1) ss with
  | .ok (_, ss) => some ss
  | .error _ => none

/-- Read a token into the buffer. -/
def token (ss : IStream UInt8) : Bytes × IStream UInt8 := ss.token (bufferSize - 1) quote

/-- The string that the buffer holds. -/
def ofBuf (buf : Bytes) : Bytes := buf.takeWhile (· ≠ 0)

/-- Read a name and a value. -/
def readPair (ss : IStream UInt8) : (Bytes × Bytes) × IStream UInt8 :=
  let (_, ss) := token ss
  let (buf, ss) := token ss
  let first := ofBuf buf
  let (_, ss) := token ss
  let (buf, ss) := token ss
  ((first, ofBuf buf), ss)

/-- The result of `get`, given the body of the response; `none` if it does not return. -/
def get (s : Bytes) (valSize : UInt32) : Option (ValType × UInt32) :=
  if s.take 1 = str "K" then some (none, valSize)
  else
    (skip (.ofList s)).map fun ss =>
      let (_, ss) := readPair ss
      let (returnValue, _) := readPair ss
      (some (CStr.ofBytes returnValue.2), valSize)

/-! ### The search for the brace -/

variable {ss ss' : IStream UInt8} {s post : Bytes}

theorem skipLoop_body_brace (h : s = brace :: post) :
    skipLoop.body (.ofList s) = .ok (false, .ofList s) := by
  subst h
  rfl

theorem skipLoop_body_ne {c : UInt8} (h : c ≠ brace) :
    skipLoop.body (.ofList (c :: s)) = .ok (true, .ofList s) := by
  simp [skipLoop, IStream.peek, IStream.ignore, IStream.good, IStream.ofList, h]

theorem ends_skipLoop (post : Bytes) {pre : Bytes} (hpre : brace ∉ pre) :
    ∃ es, es.length = pre.length + 1 ∧
      skipLoop.Ends (.ofList (pre ++ brace :: post)) es (.ofList (brace :: post)) := by
  induction pre with
  | nil => exact ⟨[false], rfl, .last (skipLoop_body_brace rfl) rfl⟩
  | cons c pre ih =>
    obtain ⟨es, hlen, hends⟩ := ih fun hmem => hpre (List.mem_cons_of_mem _ hmem)
    have hc : c ≠ brace := fun h => hpre (h ▸ List.mem_cons_self)
    exact ⟨true :: es, by simp [hlen], .more (skipLoop_body_ne hc) rfl hends⟩

/-- Nothing is put back, so that the loop ends only if there is a brace. -/
theorem brace_mem_of_ends {es : List Bool} (h : skipLoop.Ends ss es ss') : brace ∈ ss.rest := by
  induction h with
  | @last ss ss' again hb hno =>
    simp only [skipLoop] at hb
    split at hb
    · cases hb
      cases hno
    · rename_i hc
      exact IStream.mem_of_peek (not_not.1 hc)
  | @more ss ss₁ ss' again es hb hag _ ih =>
    simp only [skipLoop] at hb
    split at hb
    · cases hb
      have hmem := IStream.ignore_rest_subset _ _ ih
      rwa [IStream.peek_rest, IStream.peek_rest] at hmem
    · cases hb
      cases hag

theorem skip_ofList {pre : Bytes} (hpre : brace ∉ pre) :
    skip (.ofList (pre ++ brace :: post)) = some (.ofList (brace :: post)) := by
  obtain ⟨es, hlen, hends⟩ := ends_skipLoop post hpre
  have hle : es.length ≤ (pre ++ brace :: post).length + 1 := by
    rw [hlen, List.length_append]
    omega
  have hrun : skipLoop.run () ((pre ++ brace :: post).length + 1) (.ofList (pre ++ brace :: post)) =
      .ok (es, .ofList (brace :: post)) := Loop.run_of_length_le hends _ hle
  rw [skip]
  show (match skipLoop.run () ((pre ++ brace :: post).length + 1) _ with
    | .ok (_, ss) => some ss
    | .error _ => none) = _
  rw [hrun]

/-- **The search for the opening brace** ends exactly if there is one, and `skip` gives its end. -/
theorem skip_eq_some_iff :
    skip (.ofList s) = some ss ↔ ∃ es, skipLoop.Ends (.ofList s) es ss := by
  constructor
  · intro h
    unfold skip at h
    split at h
    · rename_i es ss' hrun
      cases h
      exact ⟨es, Loop.ends_of_run hrun⟩
    · cases h
  · rintro ⟨es, h⟩
    have hmem : brace ∈ s := brace_mem_of_ends h
    obtain ⟨pre, post, rfl, hpre⟩ := List.eq_append_cons_of_mem hmem
    obtain ⟨es', -, h'⟩ := ends_skipLoop post hpre
    rw [skip_ofList hpre, (h.unique h').2]

/-! ### When `get` returns -/

theorem ends_iff_brace_mem : (∃ es ss, skipLoop.Ends (.ofList s) es ss) ↔ brace ∈ s := by
  constructor
  · rintro ⟨es, ss, h⟩
    exact brace_mem_of_ends h
  · intro hmem
    obtain ⟨pre, post, rfl, hpre⟩ := List.eq_append_cons_of_mem hmem
    obtain ⟨es, -, h⟩ := ends_skipLoop post hpre
    exact ⟨es, _, h⟩

theorem length_of_ends {es : List Bool} (h : skipLoop.Ends (.ofList s) es ss) :
    es.length = s.idxOf brace + 1 := by
  obtain ⟨pre, post, rfl, hpre⟩ := List.eq_append_cons_of_mem (brace_mem_of_ends h)
  obtain ⟨es', hlen, h'⟩ := ends_skipLoop post hpre
  rw [(h.unique h').1, hlen, List.idxOf_append_of_notMem hpre, List.idxOf_cons_self, Nat.add_zero]

/-- **When `get` returns.**  It gives a result exactly if the body begins with a `K`, or has an
opening brace; in the second case the search for the brace stops there.  Without a brace the
search has no end. -/
theorem get_returns_iff (s : Bytes) (n : UInt32) :
    ((∃ v n', get s n = some (v, n')) ↔ s.take 1 = str "K" ∨ brace ∈ s) ∧
      ((∃ es ss, skipLoop.Ends (.ofList s) es ss) ↔ brace ∈ s) ∧
      ∀ es ss, skipLoop.Ends (.ofList s) es ss → es.length = s.idxOf brace + 1 := by
  refine ⟨?_, ends_iff_brace_mem, fun es ss h => length_of_ends h⟩
  by_cases hK : s.take 1 = str "K"
  · simp [get, hK]
  · rw [get, if_neg hK, ← ends_iff_brace_mem]
    constructor
    · rintro ⟨v, n', h⟩
      obtain ⟨ss, hskip, -⟩ := Option.map_eq_some_iff.1 h
      obtain ⟨es, hends⟩ := skip_eq_some_iff.1 hskip
      exact .inr ⟨es, ss, hends⟩
    · rintro (h | ⟨es, ss, hends⟩)
      · exact absurd h hK
      · rw [skip_eq_some_iff.2 ⟨es, hends⟩]
        exact ⟨_, _, rfl⟩

/-- An empty body. -/
theorem get_empty : get [] 0 = none ∧ ¬ ∃ es ss, skipLoop.Ends (.ofList []) es ss := by
  refine ⟨rfl, ?_⟩
  rintro ⟨es, ss, h⟩
  cases brace_mem_of_ends h

end Client

end CrankItUp
