import CrankItUp.Server.Safety
import Mathlib.Logic.Function.Basic

/-!
# Connections

Each connection has a session, which reads a request, has it handled, writes the response, and
reads the next one.  The sessions share the cache, and take turns in any order.

* `Session` : what a session is waiting for.
* `listener needEof` : the server with its sessions; `needEof` says of a response that its end is
  the end of the stream.
* `handledBy i H`, `writtenBy i H` : the requests that the connection `i` has delivered, and the
  responses that it has taken, in the run `H`.
* `Tally` : how these two are related, by what the session is waiting for.
* `answered_in_order` : no response is lost or comes twice, and all are in order.
* `served_once` : no connection is kept alive, as no response says how long it is.
-/

namespace CrankItUp

/-- What a session is waiting for. -/
inductive Session where
  /-- For the end of `async_read`. -/
  | reading
  /-- For the end of `async_write`; `close` is the `need_eof` of the response. -/
  | writing (res : Response) (close : Bool)
  /-- For nothing; the connection has been shut down. -/
  | closed
  /-- For nothing; nobody owns the session, so that the connection is gone. -/
  | dropped
  deriving DecidableEq

/-- How `async_read` ends. -/
inductive ReadEnd where
  | request (req : Request)
  | endOfStream
  | error

/-- The handlers that are called when something is complete. -/
inductive Completion where
  | onAccept (i : ℕ)
  | onRead (i : ℕ) (e : ReadEnd)
  | onWrite (i : ℕ) (error : Bool)

/-- What the server does for a connection. -/
inductive Deed where
  | nothing
  /-- A request has been handled; `none` if nothing is sent. -/
  | handled (i : ℕ) (req : Request) (res : Option Response)
  /-- A response has been written. -/
  | written (i : ℕ) (res : Response)

/-- The server: its cache, and the sessions of the connections that have been accepted. -/
structure Listener where
  cache : Impl LRU
  sessions : ℕ → Option Session

namespace Listener

/-- No connection has been accepted. -/
def start (cache : Impl LRU) : Listener := ⟨cache, fun _ => none⟩

variable (needEof : Response → Bool) (l : Listener)

/-- Change a session. -/
def put (i : ℕ) (s : Session) : Listener :=
  { l with sessions := Function.update l.sessions i (some s) }

/-- The response is handed to `async_write`.  If nothing is sent, nothing refers to the session
any more. -/
def afterSend : Option Response → Session
  | some res => .writing res (needEof res)
  | none => .dropped

/-- A handler is called.  The fault is `none` if nothing of the kind is under way. -/
def step : Completion → Except (Option Fault) (Deed × Listener)
  | .onAccept i =>
    match l.sessions i with
    | none => .ok (.nothing, l.put i .reading)
    | some _ => .error none
  | .onRead i e =>
    match l.sessions i with
    | some .reading =>
      match e with
      | .endOfStream => .ok (.nothing, l.put i .closed)
      | .error => .ok (.nothing, l.put i .dropped)
      | .request req =>
        match handleRequest l.cache req with
        | .ok (res, cache) =>
          .ok (.handled i req res, { l with cache := cache }.put i (afterSend needEof res))
        | .error f => .error (some f)
    | _ => .error none
  | .onWrite i error =>
    match l.sessions i with
    | some (.writing res close) =>
      if error then .ok (.nothing, l.put i .dropped)
      else if close then .ok (.written i res, l.put i .closed)
      else .ok (.written i res, l.put i .reading)
    | _ => .error none

end Listener

/-- The server with its connections. -/
def listener (needEof : Response → Bool) : Machine Listener Completion Deed (Option Fault) :=
  ⟨Listener.step needEof⟩

/-! ### The end of a response -/

/-- The name of a field in small letters, as names are compared. -/
def lowerCase (name : Bytes) : Bytes :=
  name.map fun c => if 0x41 ≤ c ∧ c ≤ 0x5A then c + 0x20 else c

/-- The response says where it ends. -/
def Response.Delimited (res : Response) : Prop :=
  ∃ f ∈ res.fields, lowerCase f.1 = str "content-length" ∨
    lowerCase f.1 = str "transfer-encoding"

instance (res : Response) : Decidable res.Delimited :=
  inferInstanceAs (Decidable (∃ f ∈ res.fields, _ ∨ _))

/-! ### What a connection sees -/

/-- The requests that have been handled, with their connections, the last one first. -/
def handled (H : List (Completion × Deed)) : List (ℕ × (Request × Option Response)) :=
  H.filterMap fun x =>
    match x.2 with
    | .handled i req res => some (i, (req, res))
    | _ => none

/-- The responses that have been written, with their connections, the last one first. -/
def written (H : List (Completion × Deed)) : List (ℕ × Response) :=
  H.filterMap fun x =>
    match x.2 with
    | .written i res => some (i, res)
    | _ => none

/-- The part that belongs to the connection `i`. -/
def ofConnection {α : Type} (i : ℕ) (l : List (ℕ × α)) : List α :=
  (l.filter fun x => x.1 = i).map Prod.snd

/-- The requests of the connection `i` that have been handled. -/
def handledBy (i : ℕ) (H : List (Completion × Deed)) : List (Request × Option Response) :=
  ofConnection i (handled H)

/-- The responses that have been written to the connection `i`. -/
def writtenBy (i : ℕ) (H : List (Completion × Deed)) : List Response :=
  ofConnection i (written H)

section

variable {α : Type} {i j : ℕ} {a : α} {l : List (ℕ × α)}

theorem ofConnection_cons_self : ofConnection i ((i, a) :: l) = a :: ofConnection i l := by
  simp [ofConnection]

theorem ofConnection_cons_of_ne (h : j ≠ i) : ofConnection i ((j, a) :: l) = ofConnection i l := by
  simp [ofConnection, h]

end

/-! ### The tally of a connection -/

/-- Every request has been answered, and no response needs the end of the stream. -/
def AllAnswered (needEof : Response → Bool) (A : List (Request × Option Response))
    (W : List Response) : Prop :=
  A.map Prod.snd = W.map some ∧ ∀ res ∈ W, needEof res = false

/-- What has been handled and written, by what the session is waiting for. -/
inductive Tally (needEof : Response → Bool) :
    Option Session → List (Request × Option Response) → List Response → Prop
  | unborn : Tally needEof none [] []
  | reading {A : List (Request × Option Response)} {W : List Response} :
      AllAnswered needEof A W → Tally needEof (some .reading) A W
  | writing {A : List (Request × Option Response)} {W : List Response} {req : Request}
      {res : Response} : AllAnswered needEof A W →
      Tally needEof (some (.writing res (needEof res))) ((req, some res) :: A) W
  | ended {A : List (Request × Option Response)} {W : List Response} {s : Session} :
      AllAnswered needEof A W → s = .closed ∨ s = .dropped → Tally needEof (some s) A W
  | finished {A : List (Request × Option Response)} {W : List Response} {req : Request}
      {res : Response} : AllAnswered needEof A W →
      Tally needEof (some .closed) ((req, some res) :: A) (res :: W)
  | lost {A : List (Request × Option Response)} {W : List Response}
      {x : Request × Option Response} : AllAnswered needEof A W →
      Tally needEof (some .dropped) (x :: A) W

variable {needEof : Response → Bool} {l l' : Listener} {c : Completion} {e : Deed}
  {H : List (Completion × Deed)} {i j : ℕ} {cache : Impl LRU}

namespace Tally

variable {s : Option Session} {A : List (Request × Option Response)} {W : List Response}

theorem of_mem_tail (h : Tally needEof s A W) :
    ∀ x ∈ A.tail, ∃ res, x.2 = some res ∧ needEof res = false := by
  have hanswered : ∀ {A W}, AllAnswered needEof A W →
      ∀ x ∈ A, ∃ res, x.2 = some res ∧ needEof res = false := by
    rintro A W ⟨heq, hfalse⟩ x hx
    obtain ⟨res, hres, hx⟩ := List.mem_map.1 (heq ▸ List.mem_map_of_mem (f := Prod.snd) hx)
    exact ⟨res, hx.symm, hfalse res hres⟩
  cases h with
  | unborn => exact nofun
  | reading h | ended h => exact fun x hx => hanswered h x (List.mem_of_mem_tail hx)
  | writing h | finished h | lost h => exact hanswered h

theorem eq_or_eq_tail (h : Tally needEof s A W) :
    W.map some = A.map Prod.snd ∨ W.map some = A.tail.map Prod.snd := by
  cases h with
  | unborn => exact .inl rfl
  | reading h | ended h => exact .inl h.1.symm
  | finished h =>
    refine .inl ?_
    rw [List.map_cons, List.map_cons, h.1]
  | writing h | lost h => exact .inr h.1.symm

/-- A session that reads or has shut down its connection owes nothing. -/
theorem paid (h : Tally needEof s A W) (hs : s = some .reading ∨ s = some .closed) :
    W.map some = A.map Prod.snd := by
  cases h with
  | unborn => exact rfl
  | reading h | ended h => exact h.1.symm
  | finished h => rw [List.map_cons, List.map_cons, h.1]
  | writing | lost => simp at hs

end Tally

/-! ### The handlers -/

namespace Listener

/-- What a handler does. -/
inductive Moves (needEof : Response → Bool) (l : Listener) : Deed → Listener → Prop
  | accepts {i : ℕ} : l.sessions i = none → Moves needEof l .nothing (l.put i .reading)
  | ends {i : ℕ} {s : Session} : l.sessions i = some .reading → s = .closed ∨ s = .dropped →
      Moves needEof l .nothing (l.put i s)
  | handles {i : ℕ} {req : Request} {res : Option Response} {cache : Impl LRU} :
      l.sessions i = some .reading → handleRequest l.cache req = .ok (res, cache) →
      Moves needEof l (.handled i req res)
        ({ l with cache := cache }.put i (afterSend needEof res))
  | fails {i : ℕ} {res : Response} {close : Bool} : l.sessions i = some (.writing res close) →
      Moves needEof l .nothing (l.put i .dropped)
  | writes {i : ℕ} {res : Response} {close : Bool} : l.sessions i = some (.writing res close) →
      Moves needEof l (.written i res) (l.put i (if close then .closed else .reading))

theorem step_cases (h : l.step needEof c = .ok (e, l')) : l.Moves needEof e l' := by
  cases c <;> simp only [step] at h
  case onAccept i =>
    split at h
    · rename_i hnone
      cases h
      exact .accepts hnone
    · cases h
  case onRead i r =>
    split at h
    · rename_i hreading
      cases r with
      | endOfStream =>
        cases h
        exact .ends hreading (.inl rfl)
      | error =>
        cases h
        exact .ends hreading (.inr rfl)
      | request req =>
        simp only at h
        split at h
        · rename_i hres
          cases h
          exact .handles hreading hres
        · cases h
    · cases h
  case onWrite i error =>
    split at h
    · rename_i res close hwriting
      have hmove : l.Moves needEof (.written i res)
          (l.put i (if close then .closed else .reading)) := .writes hwriting
      split at h
      · cases h
        exact .fails hwriting
      · split at h
        · rename_i hclose
          cases h
          rwa [if_pos hclose] at hmove
        · rename_i hclose
          cases h
          rwa [if_neg hclose] at hmove
    · cases h

end Listener

/-! ### Whole runs -/

theorem Tally.handle {A : List (Request × Option Response)} {W : List Response} {req : Request}
    (h : Tally needEof (some .reading) A W) (res : Option Response) :
    Tally needEof (some (Listener.afterSend needEof res)) ((req, res) :: A) W := by
  cases h with
  | reading h =>
    cases res with
    | some res => exact .writing h
    | none => exact .lost h
  | ended _ hs => simp at hs

theorem Tally.write {A : List (Request × Option Response)} {W : List Response} {res : Response}
    {close : Bool} (h : Tally needEof (some (.writing res close)) A W) :
    Tally needEof (some (if close then .closed else .reading)) A (res :: W) := by
  cases h with
  | writing h =>
    cases hclose : needEof res with
    | true => exact .finished h
    | false =>
      refine .reading ⟨?_, ?_⟩
      · rw [List.map_cons, List.map_cons, h.1]
      · exact List.forall_mem_cons.2 ⟨hclose, h.2⟩
  | ended _ hs => simp at hs

theorem Tally.fail {A : List (Request × Option Response)} {W : List Response} {res : Response}
    {close : Bool} (h : Tally needEof (some (.writing res close)) A W) :
    Tally needEof (some .dropped) A W := by
  cases h with
  | writing h => exact .lost h
  | ended _ hs => simp at hs

theorem Tally.leave {A : List (Request × Option Response)} {W : List Response} {s : Session}
    (h : Tally needEof (some .reading) A W) (hs : s = .closed ∨ s = .dropped) :
    Tally needEof (some s) A W := by
  cases h with
  | reading h => exact .ended h hs
  | ended _ hs => simp at hs

theorem Tally.accept {A : List (Request × Option Response)} {W : List Response}
    (h : Tally needEof none A W) : Tally needEof (some .reading) A W := by
  cases h with
  | unborn => exact .reading ⟨rfl, nofun⟩

theorem Listener.put_self (l : Listener) (i : ℕ) (s : Session) :
    (l.put i s).sessions i = some s :=
  Function.update_self _ _ _

theorem Listener.put_of_ne (h : i ≠ j) (l : Listener) (s : Session) :
    (l.put j s).sessions i = l.sessions i :=
  Function.update_of_ne h _ _

/-- The tallies of all connections. -/
def Tallies (needEof : Response → Bool) (H : List (Completion × Deed)) (l : Listener) : Prop :=
  ∀ i, Tally needEof (l.sessions i) (handledBy i H) (writtenBy i H)

theorem Tallies.put {H' : List (Completion × Deed)} {s : Session} (h : Tallies needEof H l)
    (hj : Tally needEof (some s) (handledBy j H') (writtenBy j H'))
    (hother : ∀ i, j ≠ i → handledBy i H' = handledBy i H ∧ writtenBy i H' = writtenBy i H) :
    Tallies needEof H' (l.put j s) := by
  intro i
  by_cases hij : j = i
  · subst hij
    rw [Listener.put_self]
    exact hj
  · obtain ⟨hhandled, hwritten⟩ := hother i hij
    rw [Listener.put_of_ne (Ne.symm hij), hhandled, hwritten]
    exact h i

/-- What a handler does is in the tally of its connection, and leaves the others alone. -/
theorem Tallies.moves (h : Tallies needEof H l) (hmove : l.Moves needEof e l') (c : Completion) :
    Tallies needEof ((c, e) :: H) l' := by
  cases hmove with
  | @accepts j hnone =>
    have hj := h j
    rw [hnone] at hj
    exact h.put hj.accept fun _ _ => ⟨rfl, rfl⟩
  | @ends j s hreading hs =>
    have hj := h j
    rw [hreading] at hj
    exact h.put (hj.leave hs) fun _ _ => ⟨rfl, rfl⟩
  | @handles j req res cache hreading hres =>
    have hl : Tallies needEof H { l with cache := cache } := h
    have hj := h j
    rw [hreading] at hj
    refine hl.put ?_ fun i hij => ⟨ofConnection_cons_of_ne hij, rfl⟩
    have hself : handledBy j ((c, .handled j req res) :: H) = (req, res) :: handledBy j H :=
      ofConnection_cons_self
    rw [hself]
    exact hj.handle res
  | @fails j res close hwriting =>
    have hj := h j
    rw [hwriting] at hj
    exact h.put hj.fail fun _ _ => ⟨rfl, rfl⟩
  | @writes j res close hwriting =>
    have hj := h j
    rw [hwriting] at hj
    refine h.put ?_ fun i hij => ⟨rfl, ofConnection_cons_of_ne hij⟩
    have hself : writtenBy j ((c, .written j res) :: H) = res :: writtenBy j H :=
      ofConnection_cons_self
    rw [hself]
    exact hj.write

theorem handled_reaches (h : (listener needEof).Reaches (fun _ _ => True) (.start cache) H l) :
    server.Reaches (fun _ _ => True) cache ((handled H).map Prod.snd) l.cache := by
  induction h with
  | start => exact .start
  | call _ _ hst ih =>
    cases Listener.step_cases hst with
    | handles _ hres => exact .call ih trivial hres
    | accepts | ends | fails | writes => exact ih

theorem tallies_of_reaches
    (h : (listener needEof).Reaches (fun _ _ => True) (.start cache) H l) : Tallies needEof H l :=
  h.invariant (I := fun H l => Tallies needEof H l) (fun _ => .unborn)
    fun _ _ c _ _ ht _ hst => ht.moves (Listener.step_cases hst) c

/-- **Responses come in order.**  However the connections take turns, the requests are handled as
in a run of the server.  On each connection all requests but possibly the last one have been
answered by the responses of this run, in the same order; a session that is about to read, or has
shut down its connection, has answered the last one too.  Only the last response may need the end
of the stream. -/
theorem answered_in_order
    (h : (listener needEof).Reaches (fun _ _ => True) (.start cache) H l) :
    server.Reaches (fun _ _ => True) cache ((handled H).map Prod.snd) l.cache ∧
      ∀ i, (∀ x ∈ (handledBy i H).tail, ∃ res, x.2 = some res ∧ needEof res = false) ∧
        ((writtenBy i H).map some = (handledBy i H).map Prod.snd ∨
          (writtenBy i H).map some = (handledBy i H).tail.map Prod.snd) ∧
        (l.sessions i = some .reading ∨ l.sessions i = some .closed →
          (writtenBy i H).map some = (handledBy i H).map Prod.snd) :=
  ⟨handled_reaches h, fun i =>
    have ht := tallies_of_reaches h i
    ⟨ht.of_mem_tail, ht.eq_or_eq_tail, ht.paid⟩⟩

/-- Two connections take turns, and the second one is answered first. -/
theorem answered_in_order_two : ∃ H l, (listener fun res => decide ¬ res.Delimited).exec
      (.start (serverCache 100 (.finite 3 2) firstByte))
      [.onAccept 0, .onAccept 1, .onRead 0 (.request ⟨11, .put, str "/a/x"⟩),
        .onRead 1 (.request ⟨11, .get, str "/a"⟩), .onWrite 1 false, .onWrite 0 false] =
        some (H, l) ∧
    l.sessions 1 = some .closed ∧ (handledBy 1 H).length = 1 ∧
    (writtenBy 1 H).map some = (handledBy 1 H).map Prod.snd :=
  Machine.exists_exec ⟨_, _, rfl, by decide⟩ (Machine.guarded_true _ _)
    fun H l h (hD : l.sessions 1 = some .closed ∧ (handledBy 1 H).length = 1) =>
      ⟨hD.1, hD.2, ((answered_in_order h).2 1).2.2 (.inr hD.1)⟩

/-! ### How long a connection lives -/

/-- The names of the fields that the server sets. -/
def fieldNames : List Bytes := [contentType, versionField, str "Space-Used"]

/-- The response has no other fields. -/
def Response.Labelled (res : Response) : Prop := ∀ f ∈ res.fields, f.1 ∈ fieldNames

namespace Response.Labelled

variable {res : Response} {name value : Bytes}

theorem new (version : ℕ) : (Response.new version).Labelled := nofun

theorem insert (h : res.Labelled) (hname : name ∈ fieldNames) :
    (res.insert name value).Labelled := by
  intro f hf
  rcases List.mem_append.1 hf with hf | hf
  · exact h f hf
  · rw [List.mem_singleton.1 hf]
    exact hname

theorem set (h : res.Labelled) (hname : name ∈ fieldNames) : (res.set name value).Labelled := by
  intro f hf
  rcases List.mem_append.1 hf with hf | hf
  · exact h f (List.mem_filter.1 hf).1
  · rw [List.mem_singleton.1 hf]
    exact hname

end Response.Labelled

theorem labelled_of_handleRequest {s s' : Impl LRU} {req : Request} {res : Response}
    (h : handleRequest s req = .ok (some res, s')) : res.Labelled := by
  have hnew : (Response.new req.version).Labelled := .new _
  have htype : contentType ∈ fieldNames := List.mem_cons_self
  have hversion : versionField ∈ fieldNames := List.mem_cons_of_mem _ List.mem_cons_self
  have hspace : str "Space-Used" ∈ fieldNames :=
    List.mem_cons_of_mem _ (List.mem_cons_of_mem _ List.mem_cons_self)
  obtain ⟨o, r, hop, hr, hres⟩ := op_of_handleRequest h
  have ha := Request.op_eq_ok.1 hop
  obtain ⟨rfl, rfl, -⟩ | ⟨o, r, rfl, rfl, hst⟩ := perform_cases hr
  · cases ha with
    | wrongTarget hm =>
      rw [Request.respond_wrongTarget hm] at hres
      cases hres
      exact (hnew.set hversion).set htype
    | other hm =>
      rw [Request.respond_other (by simp [hm])] at hres
      cases hres
  · have hc := Impl.step_cases hst
    cases ha with
    | get =>
      cases hc with
      | get hget =>
        obtain ⟨-, ⟨-, rfl, -⟩ | ⟨t, v, -, -, rfl, rfl, -⟩⟩ := Impl.get_cases hget
        · cases hres
          exact hnew.set htype
        · obtain ⟨-, -, hshow⟩ | ⟨-, hempty⟩ := respond_get_cases hres
          · cases hshow
            exact hnew.set htype
          · cases hempty
            exact hnew
    | put =>
      cases hc with
      | set =>
        cases hres
        exact hnew.set htype
    | delete =>
      cases hc with
      | del =>
        cases hres
        exact (hnew.set hversion).set htype
    | head =>
      cases hc with
      | spaceUsed =>
        cases hres
        exact (hnew.set htype).insert hspace
    | reset =>
      cases hc with
      | reset =>
        cases hres
        exact (hnew.set htype).set hversion

theorem not_delimited_of_handleRequest {s s' : Impl LRU} {req : Request} {res : Response}
    (h : handleRequest s req = .ok (some res, s')) : ¬ res.Delimited := by
  rintro ⟨f, hf, hname⟩
  have hnames : ∀ name ∈ fieldNames, ¬ (lowerCase name = str "content-length" ∨
    lowerCase name = str "transfer-encoding") := by decide
  exact hnames _ (labelled_of_handleRequest h f hf) hname

theorem not_delimited_of_reaches {s : Impl LRU} {A : List (Request × Option Response)}
    (h : server.Reaches (fun _ _ => True) cache A s) :
    ∀ x ∈ A, ∀ res, x.2 = some res → ¬ res.Delimited := by
  refine h.invariant
    (I := fun A _ => ∀ x ∈ A, ∀ res, x.2 = some res → ¬ Response.Delimited res) nofun ?_
  intro A s req r s' hA _ hst x hx res hres
  rcases List.mem_cons.1 hx with rfl | hx
  · dsimp only at hres
    rw [hres] at hst
    exact not_delimited_of_handleRequest hst
  · exact hA x hx res hres

section

variable {s : Option Session} {A : List (Request × Option Response)} {W : List Response}

theorem AllAnswered.eq_nil (h : AllAnswered needEof A W)
    (hA : ∀ x ∈ A, ∀ res, x.2 = some res → needEof res = true) : A = [] ∧ W = [] := by
  obtain ⟨heq, hfalse⟩ := h
  cases W with
  | nil => exact ⟨List.map_eq_nil_iff.1 heq, rfl⟩
  | cons res W =>
    have hmem : some res ∈ A.map Prod.snd := by
      rw [heq]
      exact List.mem_cons_self
    obtain ⟨x, hx, hres⟩ := List.mem_map.1 hmem
    have htrue := hA x hx res hres
    rw [hfalse res List.mem_cons_self] at htrue
    cases htrue

/-- If all responses need the end of the stream, one request is handled at most. -/
theorem Tally.once (h : Tally needEof s A W)
    (hA : ∀ x ∈ A, ∀ res, x.2 = some res → needEof res = true) :
    A.length ≤ 1 ∧ (W ≠ [] → s = some .closed) := by
  cases h with
  | unborn => exact ⟨Nat.zero_le _, fun hW => absurd rfl hW⟩
  | reading h | ended h =>
    obtain ⟨rfl, rfl⟩ := h.eq_nil hA
    exact ⟨Nat.zero_le _, fun hW => absurd rfl hW⟩
  | writing h | lost h =>
    obtain ⟨rfl, rfl⟩ := h.eq_nil (List.forall_mem_cons.1 hA).2
    exact ⟨le_rfl, fun hW => absurd rfl hW⟩
  | finished h =>
    obtain ⟨rfl, rfl⟩ := h.eq_nil (List.forall_mem_cons.1 hA).2
    exact ⟨le_rfl, fun _ => rfl⟩

end

/-- **No connection is kept alive.**  Where a response that does not say how long it is needs the
end of the stream, as it does in HTTP, no connection ever has more than one request handled,
and one that has its response is shut down. -/
theorem served_once (heof : ∀ res : Response, ¬ res.Delimited → needEof res = true)
    (h : (listener needEof).Reaches (fun _ _ => True) (.start cache) H l) (i : ℕ) :
    (handledBy i H).length ≤ 1 ∧ (writtenBy i H ≠ [] → l.sessions i = some .closed) := by
  refine (tallies_of_reaches h i).once fun x hx res hres => ?_
  obtain ⟨y, hy, rfl⟩ := List.mem_map.1 hx
  exact heof res (not_delimited_of_reaches (handled_reaches h) y.2
    (List.mem_map_of_mem (List.mem_filter.1 hy).1) res hres)

/-- A connection on which a request has been answered. -/
theorem served_once_put : ∃ H l,
    (listener fun res => decide ¬ res.Delimited).exec
      (.start (serverCache 100 (.finite 3 2) firstByte))
      [.onAccept 0, .onRead 0 (.request ⟨11, .put, str "/a/x"⟩), .onWrite 0 false] = some (H, l) ∧
    writtenBy 0 H ≠ [] ∧ (handledBy 0 H).length ≤ 1 ∧ l.sessions 0 = some .closed :=
  Machine.exists_exec ⟨_, _, rfl, by decide⟩ (Machine.guarded_true _ _)
    fun H _ h (hD : writtenBy 0 H ≠ []) =>
      have honce := served_once (fun _ => decide_eq_true) h 0
      ⟨hD, honce.1, honce.2 hD⟩

end CrankItUp
