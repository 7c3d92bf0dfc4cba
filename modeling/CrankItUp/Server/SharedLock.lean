import CrankItUp.Server.Basic

/-!
# The work under the shared lock

`handleRequest` holds a shared lock while it calls the cache for a `GET`, `DELETE` or `HEAD`, so
that several such requests may use the cache at the same time.

* `ReadOnly s req` : the request is a `HEAD`, a `GET` of a key that is absent or has been used
  last, or a `DELETE` of a key that is absent.
* `shared_unchanged_iff` : exactly these requests leave the cache and its evictor unchanged; any
  two of them may then be served in either order.
-/

namespace CrankItUp

/-- The keys of the evictor, the most recently touched first. -/
def Impl.recency (s : Impl LRU) : List KeyType :=
  match s.evictor with
  | some e => e.keys
  | none => []

/-- The request does not change the cache. -/
def ReadOnly (s : Impl LRU) (req : Request) : Prop :=
  match req.method with
  | .get => s.lookup req.key = none ∨ s.recency.head? = some req.key
  | .delete => s.lookup req.key = none
  | _ => True

instance (s : Impl LRU) (req : Request) : Decidable (ReadOnly s req) := by
  unfold ReadOnly
  split <;> infer_instance

variable {s s' s₁ s₂ : Impl LRU} {req req₁ req₂ : Request} {res res₁ res₂ : Option Response}
  {e : LRU}

theorem touchKey_eq_self_iff (he : s.evictor = some e) {key : KeyType} :
    s.touchKey key = s ↔ s.recency.head? = some key := by
  have hrec : s.recency = e.keys := by rw [Impl.recency, he]
  have htouch : (s.touchKey key).evictor = some (Evictor.touchKey e key) := by
    simp [Impl.touchKey, he]
  rw [hrec, ← LRU.touchKey_eq_self_iff]
  constructor
  · intro h
    rw [h, he] at htouch
    exact (Option.some.inj htouch).symm
  · intro h
    rw [Impl.touchKey, he, Option.map_some, h, ← he]

theorem get_eq_self_iff (he : s.evictor = some e) {key : KeyType} {n n' : UInt32} {v : ValType}
    (h : s.get key n = .ok (v, n', s')) :
    s' = s ↔ s.lookup key = none ∨ s.recency.head? = some key := by
  obtain ⟨-, ⟨hl, -, -, rfl⟩ | ⟨t, w, hl, -, -, -, rfl⟩⟩ := Impl.get_cases h
  · simp [hl]
  · rw [touchKey_eq_self_iff he]
    simp [hl]

theorem del_eq_self_iff {key : KeyType} {b : Bool} (h : s.del key = .ok (b, s')) :
    s' = s ↔ s.lookup key = none := by
  obtain ⟨-, ⟨-, rfl, hl⟩ | ⟨-, t, hd⟩⟩ := Impl.del_cases h
  · simp [hl]
  · -- a deleted triple is missing afterwards
    have hlen := hd.triples_perm.length_eq
    refine ⟨?_, fun hl => ?_⟩
    · rintro rfl
      simp at hlen
    · rw [hd.lookup_eq] at hl
      cases hl

/-- A request served under the shared lock changes nothing exactly if it is read-only. -/
theorem eq_self_iff_readOnly (he : s.evictor = some e) (hlock : req.lock = some .shared)
    (h : handleRequest s req = .ok (res, s')) : s' = s ↔ ReadOnly s req := by
  unfold handleRequest at h
  unfold ReadOnly
  split at h
  · rename_i hm
    obtain ⟨v, n, hget⟩ := handleGet_cases h
    simp only [hm]
    exact get_eq_self_iff he hget
  · -- a `PUT` holds the unique lock
    rename_i hm
    simp [Request.lock, hm] at hlock
  · rename_i hm
    obtain ⟨b, hdel⟩ := handleDelete_cases h
    simp only [hm]
    exact del_eq_self_iff hdel
  · rename_i hm
    cases h
    simp [hm]
  · -- a `POST` holds the unique lock or none
    rename_i hm
    simp only [Request.lock, hm] at hlock
    split at hlock <;> cases hlock
  · rename_i hm
    simp [Request.lock, hm] at hlock

/-- **The shared lock.**  In every state of the server, two requests that are served under the
shared lock leave the cache unchanged, and hence commute, exactly if both are read-only. -/
theorem shared_unchanged_iff {maxmem : UInt32} {loadFactor : FloatVal}
    {hasher : KeyType → UInt64} {H : List (Request × Option Response)}
    (hs : server.Reaches (fun _ _ => True) (serverCache maxmem loadFactor hasher) H s)
    (hlock₁ : req₁.lock = some .shared) (hlock₂ : req₂.lock = some .shared)
    (h₁ : handleRequest s req₁ = .ok (res₁, s₁)) (h₂ : handleRequest s req₂ = .ok (res₂, s₂)) :
    (s₁ = s ∧ s₂ = s ∧ handleRequest s₁ req₂ = .ok (res₂, s) ∧
      handleRequest s₂ req₁ = .ok (res₁, s)) ↔ ReadOnly s req₁ ∧ ReadOnly s req₂ := by
  obtain ⟨e, he⟩ := exists_evictor_of_reaches hs (e := LRU.new) rfl
  rw [← eq_self_iff_readOnly he hlock₁ h₁, ← eq_self_iff_readOnly he hlock₂ h₂]
  refine ⟨fun h => ⟨h.1, h.2.1⟩, ?_⟩
  rintro ⟨rfl, rfl⟩
  exact ⟨rfl, rfl, h₂, h₁⟩

/-- A `GET` of the key that has been stored last, and a `DELETE` of an absent one. -/
theorem shared_unchanged_last : ∃ H s, server.exec (serverCache 100 (.finite 3 2) firstByte)
    [⟨11, .put, str "/a/x"⟩, ⟨11, .put, str "/b/y"⟩] = some (H, s) ∧
    ∃ res₁ res₂ s₁ s₂, handleRequest s ⟨11, .get, str "/b"⟩ = .ok (res₁, s₁) ∧
      handleRequest s ⟨11, .delete, str "/c"⟩ = .ok (res₂, s₂) ∧ s₁ = s ∧ s₂ = s ∧
      handleRequest s₁ ⟨11, .delete, str "/c"⟩ = .ok (res₂, s) ∧
      handleRequest s₂ ⟨11, .get, str "/b"⟩ = .ok (res₁, s) :=
  Machine.exists_exec ⟨_, _, rfl, ⟨_, _, _, _, rfl, rfl⟩, by decide⟩ (Machine.guarded_true _ _)
    fun _ s h (hD : (∃ res₁ res₂ s₁ s₂,
        handleRequest s ⟨11, .get, str "/b"⟩ = .ok (res₁, s₁) ∧
        handleRequest s ⟨11, .delete, str "/c"⟩ = .ok (res₂, s₂)) ∧
      ReadOnly s ⟨11, .get, str "/b"⟩ ∧ ReadOnly s ⟨11, .delete, str "/c"⟩) =>
    have ⟨⟨res₁, res₂, s₁, s₂, h₁, h₂⟩, hread⟩ := hD
    ⟨res₁, res₂, s₁, s₂, h₁, h₂, (shared_unchanged_iff h rfl rfl h₁ h₂).2 hread⟩

/-- A `GET` changes the order of the evictor, and a `DELETE` the table; neither commutes. -/
theorem shared_changes : ∃ H s, server.exec (serverCache 100 (.finite 3 2) firstByte)
    [⟨11, .put, str "/a/x"⟩, ⟨11, .put, str "/b/y"⟩] = some (H, s) ∧
    ∃ res s', handleRequest s ⟨11, .get, str "/a"⟩ = .ok (res, s') ∧
      s'.recency ≠ s.recency ∧
      server.results s [⟨11, .get, str "/a"⟩, ⟨11, .delete, str "/a"⟩] ≠
        (server.results s [⟨11, .delete, str "/a"⟩, ⟨11, .get, str "/a"⟩]).reverse :=
  ⟨_, _, rfl, _, _, rfl, by decide, by decide⟩

end CrankItUp
