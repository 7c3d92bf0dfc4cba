import CrankItUp.Cache.Guard
import CrankItUp.Evictor.Lru

/-!
# The server

`handleRequest` answers one HTTP request with the cache that all requests share.  There is one
definition for each method that it serves; the code branches on the method in the same order.

* `Request`, `Response` : the parts of HTTP messages that the server reads and writes.
* `Request.lock` : the lock that is held during the call of the cache.
* `server` : the cache of the server as a machine that serves requests.

A failed assertion and a substring out of range are faults, as those of the cache are.  The
values that the server stores are copies made for this purpose, which nothing else points to.
-/

namespace CrankItUp

/-- The methods that the server distinguishes. -/
inductive Verb where
  | get
  | put
  | delete
  | head
  | post
  | other
  deriving DecidableEq

/-- The status codes that the server sends. -/
inductive Status where
  | ok
  | created
  | accepted
  | notFound
  deriving DecidableEq

/-- An HTTP request; `version` is 10 or 11. -/
structure Request where
  version : ℕ
  method : Verb
  target : Bytes
  deriving DecidableEq

/-- An HTTP response. -/
structure Response where
  version : ℕ
  status : Status
  fields : List (Bytes × Bytes)
  body : Bytes
  deriving DecidableEq

namespace Response

/-- A response of the given version, with the default status. -/
def new (version : ℕ) : Response := ⟨version, .ok, [], []⟩

/-- `res.result(status)`. -/
def result (res : Response) (status : Status) : Response := { res with status := status }

/-- `res.set(name, value)`: replaces the fields of this name. -/
def set (res : Response) (name value : Bytes) : Response :=
  { res with fields := (res.fields.filter fun f => f.1 ≠ name) ++ [(name, value)] }

/-- `res.insert(name, value)`. -/
def insert (res : Response) (name value : Bytes) : Response :=
  { res with fields := res.fields ++ [(name, value)] }

/-- Write to the body. -/
def write (res : Response) (text : Bytes) : Response := { res with body := res.body ++ text }

end Response

/-- `http::field::content_type`. -/
def contentType : Bytes := str "Content-Type"

/-- `http::field::version`. -/
def versionField : Bytes := str "Version"

/-- The type of most answers. -/
def applicationJson : Bytes := str "application/json"

/-- `assert`. -/
def assertThat (p : Prop) [Decidable p] : Except Fault Unit :=
  if p then .ok () else .error .assertion

/-- `s.substr(pos)`. -/
def substr (s : Bytes) (pos : ℕ) : Except Fault Bytes :=
  if pos ≤ s.length then .ok (s.drop pos) else .error .outOfRange

/-- The bytes that a `const char*` shows when it is printed. -/
def CStr.shown (v : CStr) : Bytes := v.bytes.take v.strlen

/-- The body with a key and its value. -/
def pairBody (key : KeyType) (val : CStr) : Bytes :=
  str "\x7b\n" ++ str "    \"key\": \"" ++ key ++ str "\",\n" ++
    str "    \"value\": \"" ++ val.shown ++ str "\"\n" ++ str "\x7d\n"

/-! ### The branches of `handle_request` -/

section Branches

variable (s : Impl LRU) (req : Request)

/-- The key that the target of a `GET` or `DELETE` names. -/
def Request.key (req : Request) : KeyType := req.target.drop 1

/-- Respond to a `GET` request. -/
def handleGet : Except Fault (Option Response × Impl LRU) := do
  let res := Response.new req.version
  assertThat (1 < req.target.length)
  let key ← substr req.target 1
  let (val, size, s) ← s.get key 0
  match val with
  | some val =>
    if 0 < val.strlen then
      assertThat (0 < size)
      return (some ((res.set contentType applicationJson).write (pairBody key val)), s)
    else return (some res, s)
  | none =>
    return (some (((res.result .notFound).set contentType (str "text/plain")).write
      (str "Key not found\r\n")), s)

/-- Respond to a `PUT` request.  `strcpy` stops at the first NUL. -/
def handlePut : Except Fault (Option Response × Impl LRU) := do
  let res := Response.new req.version
  let uri ← substr req.target 1
  match uri.idxOf? 0x2F with
  | none => throw .assertion
  | some sepIndex =>
    let key := uri.take sepIndex
    assertThat (key ≠ [])
    let valstr ← substr uri (sepIndex + 1)
    assertThat (valstr ≠ [])
    let size := valstr.length + 1
    let val := CStr.ofBytes (valstr.takeWhile (· ≠ 0))
    assertThat (0 < size)
    let (_, s) ← s.set key (some val) (UInt32.ofNat size)
    return (some (((res.result .created).set contentType applicationJson).write
      (pairBody key val)), s)

/-- Respond to a `DELETE` request. -/
def handleDelete : Except Fault (Option Response × Impl LRU) := do
  let res := Response.new req.version
  assertThat (1 < req.target.length)
  let key ← substr req.target 1
  let (deleted, s) ← s.del key
  let res := (res.set versionField (str "1.1")).set contentType applicationJson
  if deleted then return (some (res.write (str "true\n")), s)
  else return (some (res.write (str "false\n")), s)

/-- Respond to a `HEAD` request. -/
def handleHead : Except Fault (Option Response × Impl LRU) :=
  let res := (Response.new req.version).set contentType applicationJson
  .ok (some ((res.result .accepted).insert (str "Space-Used")
    (str (toString s.spaceUsed.toNat))), s)

/-- Respond to a `POST` request. -/
def handlePost : Except Fault (Option Response × Impl LRU) := do
  let res := Response.new req.version
  assertThat (1 < req.target.length)
  let resource ← substr req.target 1
  if resource = str "reset" then
    let res := ((res.set contentType applicationJson).result .ok).set versionField (str "1.1")
    return (some (res.write (str "Cache Reset" ++ str "\n")), s.reset)
  else
    let res := ((res.result .notFound).set versionField (str "1.1")).set contentType
      applicationJson
    return (some (res.write (str "Incorrect Target reset not performed." ++ str "\n")), s)

/-- Answer a request; `none` if nothing is sent. -/
def handleRequest : Except Fault (Option Response × Impl LRU) :=
  match req.method with
  | .get => handleGet s req
  | .put => handlePut s req
  | .delete => handleDelete s req
  | .head => handleHead s req
  | .post => handlePost s req
  | .other => .ok (none, s)

end Branches

/-- The locks on `mutex_`. -/
inductive Lock where
  | shared
  | unique
  deriving DecidableEq

/-- The lock that is held while the request uses the cache. -/
def Request.lock (req : Request) : Option Lock :=
  match req.method with
  | .get | .delete | .head => some .shared
  | .put => some .unique
  | .post => if req.target.drop 1 = str "reset" then some .unique else none
  | .other => none

/-- The server with its cache. -/
def server : Machine (Impl LRU) Request (Option Response) Fault := ⟨handleRequest⟩

/-- The cache with which the server starts; `hasher` is the hash function of the standard
library. -/
def serverCache (maxmem : UInt32) (loadFactor : FloatVal) (hasher : KeyType → UInt64) :
    Impl LRU :=
  .new maxmem loadFactor (some LRU.new) (some hasher)

/-! ### What a request does to the cache -/

variable {s s' : Impl LRU} {req : Request} {res : Option Response}

theorem substr_eq_ok {b b' : Bytes} {pos : ℕ} :
    substr b pos = .ok b' ↔ pos ≤ b.length ∧ b' = b.drop pos := by
  by_cases h : pos ≤ b.length <;> simp [substr, h, eq_comm]

theorem handleGet_cases (h : handleGet s req = .ok (res, s')) :
    ∃ v n, s.get req.key 0 = .ok (v, n, s') := by
  simp only [handleGet, bind_eq_ok] at h
  obtain ⟨_, -, key, hkey, ⟨v, n, a⟩, hget, h⟩ := h
  obtain ⟨-, rfl⟩ := substr_eq_ok.1 hkey
  obtain rfl : a = s' := by
    cases v with
    | none => cases h; rfl
    | some v =>
      simp only at h
      split at h
      · obtain ⟨_, -, h⟩ := bind_eq_ok.1 h
        cases h; rfl
      · cases h; rfl
  exact ⟨v, n, hget⟩

theorem handleDelete_cases (h : handleDelete s req = .ok (res, s')) :
    ∃ b, s.del req.key = .ok (b, s') := by
  simp only [handleDelete, bind_eq_ok] at h
  obtain ⟨_, -, key, hkey, ⟨b, a⟩, hdel, h⟩ := h
  obtain ⟨-, rfl⟩ := substr_eq_ok.1 hkey
  obtain rfl : a = s' := by cases b <;> (cases h; rfl)
  exact ⟨b, hdel⟩

theorem handlePut_cases (h : handlePut s req = .ok (res, s')) :
    ∃ key val size es, s.set key (some val) size = .ok (es, s') := by
  simp only [handlePut, bind_eq_ok] at h
  obtain ⟨uri, -, h⟩ := h
  cases hsep : uri.idxOf? 0x2F with
  | none => rw [hsep] at h; cases h
  | some i =>
    simp only [hsep, bind_eq_ok] at h
    obtain ⟨_, -, valstr, -, _, -, _, -, ⟨es, a⟩, hset, h⟩ := h
    cases h
    exact ⟨_, _, _, _, hset⟩

theorem handlePost_cases (h : handlePost s req = .ok (res, s')) : s' = s ∨ s' = s.reset := by
  simp only [handlePost, bind_eq_ok] at h
  obtain ⟨_, -, resource, -, h⟩ := h
  split at h
  · cases h; exact .inr rfl
  · cases h; exact .inl rfl

/-- A request makes at most one call of the cache. -/
theorem handleRequest_cases (h : handleRequest s req = .ok (res, s')) :
    s' = s ∨ ∃ o r, s.Call o r s' := by
  unfold handleRequest at h
  split at h
  · obtain ⟨v, n, hget⟩ := handleGet_cases h
    exact .inr ⟨_, _, .get hget⟩
  · obtain ⟨key, val, size, es, hset⟩ := handlePut_cases h
    exact .inr ⟨_, _, .set hset⟩
  · obtain ⟨b, hdel⟩ := handleDelete_cases h
    exact .inr ⟨_, _, .del hdel⟩
  · cases h; exact .inl rfl
  · rcases handlePost_cases h with rfl | rfl
    exacts [.inl rfl, .inr ⟨_, _, .reset⟩]
  · cases h; exact .inl rfl

theorem exists_evictor_of_reaches {ok : Impl LRU → Request → Prop}
    {H : List (Request × Option Response)} (h : server.Reaches ok s H s') {e : LRU}
    (he : s.evictor = some e) : ∃ e', s'.evictor = some e' := by
  rw [← Option.isSome_iff_exists]
  refine h.state_invariant (I := fun s => s.evictor.isSome = true) (by rw [he]; rfl) ?_
  intro a req res a' ha _ hst
  rcases handleRequest_cases hst with rfl | ⟨o, r, hc⟩
  · exact ha
  · rw [hc.evictor_isSome]
    exact ha

end CrankItUp
