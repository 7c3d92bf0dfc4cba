import CrankItUp.Evictor.Basic
import Mathlib.Data.List.Nodup

/-!
# The least-recently-used evictor

`LRUEvictor` keeps the keys in a linked list, the most recently touched first, and finds the
node of a key in constant time with an index `addressDict` from keys to nodes.  Both are
modelled with the identity of the nodes: a node has an address, the index holds addresses, and
`splice` moves a node without changing its address.

* `LRUEvictor.Valid` : the addresses in the list are distinct, and the index maps a key to an
  address exactly when the list has that node.  Both methods keep this.
* `LRUEvictor.keys_touchKey`, `LRUEvictor.keys_evict` : on the keys alone the two methods are
  those of a *recency list*: move to the front, and remove the last.
* `LRU` : the valid evictors, the ones that the code can build.
-/

namespace CrankItUp

/-- A node of the linked list, with its address. -/
structure Node where
  addr : ℕ
  key : KeyType
  deriving DecidableEq, Repr

/-- A node address that is not in use. -/
def newAddr (l : List Node) : ℕ := (l.map Node.addr).foldr max 0 + 1

/-- `l.splice(l.begin(), l, it)`: move the node with address `p` to the front. -/
def splice (l : List Node) (p : ℕ) : List Node :=
  match l.find? fun n => n.addr == p with
  | some n => n :: l.filter fun m => m.addr != p
  | none => l

/-- The least-recently-used policy. -/
structure LRUEvictor where
  linkedList : List Node
  addressDict : KeyType → Option ℕ

namespace LRUEvictor

/-- A new evictor. -/
def new : LRUEvictor := ⟨[], fun _ => none⟩

/-- The address that `linked_list_.begin()` points to. -/
def begin (e : LRUEvictor) : Option ℕ := e.linkedList.head?.map Node.addr

/-- A certain key has been set or get. -/
def touchKey (e : LRUEvictor) (key : KeyType) : LRUEvictor :=
  match e.addressDict key with
  | some iteratorPos =>
    if some iteratorPos ≠ e.begin then
      let l := splice e.linkedList iteratorPos
      ⟨l, Function.update e.addressDict key (l.head?.map Node.addr)⟩
    else e
  | none =>
    let n : Node := ⟨newAddr e.linkedList, key⟩
    ⟨n :: e.linkedList, Function.update e.addressDict key (some n.addr)⟩

/-- The key of the last node, which is forgotten. -/
def evict (e : LRUEvictor) : KeyType × LRUEvictor :=
  match e.linkedList.getLast? with
  | none => ([], e)
  | some n => (n.key, ⟨e.linkedList.dropLast, Function.update e.addressDict n.key none⟩)

/-- The keys, the most recently touched first. -/
def keys (e : LRUEvictor) : List KeyType := e.linkedList.map Node.key

/-- The index agrees with the list. -/
structure Valid (e : LRUEvictor) : Prop where
  nodup_addr : (e.linkedList.map Node.addr).Nodup
  indexed : ∀ k p, e.addressDict k = some p ↔ (⟨p, k⟩ : Node) ∈ e.linkedList

end LRUEvictor

/-! ### Nodes and addresses -/

theorem lt_newAddr {l : List Node} {n : Node} (h : n ∈ l) : n.addr < newAddr l := by
  induction l with
  | nil => cases h
  | cons m l ih =>
    simp only [newAddr, List.map_cons, List.foldr_cons] at ih ⊢
    rcases List.mem_cons.1 h with rfl | h
    · omega
    · have := ih h
      omega

/-- With distinct addresses, a node of the list is determined by its address. -/
theorem eq_of_addr_eq {l : List Node} (hl : (l.map Node.addr).Nodup) {m n : Node} (hm : m ∈ l)
    (hn : n ∈ l) (h : m.addr = n.addr) : m = n :=
  List.inj_on_of_nodup_map hl hm hn h

theorem splice_eq {l : List Node} (hl : (l.map Node.addr).Nodup) {n : Node} (hn : n ∈ l) :
    splice l n.addr = n :: l.filter fun m => m.addr != n.addr := by
  have hf : l.find? (fun m => m.addr == n.addr) = some n := by
    cases hfind : l.find? fun m => m.addr == n.addr with
    | none => simpa using List.find?_eq_none.1 hfind n hn
    | some m =>
      have hm := List.find?_some hfind
      rw [eq_of_addr_eq hl (List.mem_of_find?_eq_some hfind) hn (by simpa using hm)]
  simp only [splice, hf]

theorem mem_splice {l : List Node} (hl : (l.map Node.addr).Nodup) {n m : Node} (hn : n ∈ l) :
    m ∈ splice l n.addr ↔ m ∈ l := by
  rw [splice_eq hl hn, List.mem_cons, List.mem_filter]
  constructor
  · rintro (rfl | ⟨h, -⟩)
    exacts [hn, h]
  · intro hm
    by_cases h : m.addr = n.addr
    · exact .inl (eq_of_addr_eq hl hm hn h)
    · exact .inr ⟨hm, by simpa using h⟩

theorem nodup_splice {l : List Node} (hl : (l.map Node.addr).Nodup) {n : Node} (hn : n ∈ l) :
    ((splice l n.addr).map Node.addr).Nodup := by
  rw [splice_eq hl hn, List.map_cons, List.nodup_cons]
  refine ⟨?_, hl.sublist (List.filter_sublist.map _)⟩
  simp only [List.mem_map, List.mem_filter, not_exists, not_and]
  rintro m ⟨-, hm⟩ h
  simp [h] at hm

namespace LRUEvictor

variable {e : LRUEvictor}

theorem valid_new : new.Valid := ⟨List.nodup_nil, fun k p => by simp [new]⟩

theorem Valid.nodup_keys (h : e.Valid) : e.keys.Nodup := by
  refine List.Nodup.map_on (fun m hm n hn hk => ?_) (List.Nodup.of_map _ h.nodup_addr)
  have h1 : e.addressDict m.key = some m.addr := (h.indexed _ _).2 hm
  have h2 : e.addressDict m.key = some n.addr := (h.indexed _ _).2 (hk ▸ hn)
  exact eq_of_addr_eq h.nodup_addr hm hn (Option.some.inj (h1.symm.trans h2))

theorem Valid.addressDict_eq_none (h : e.Valid) {k : KeyType} :
    e.addressDict k = none ↔ k ∉ e.keys := by
  rw [Option.eq_none_iff_forall_ne_some]
  simp only [keys, List.mem_map, not_exists, not_and, ne_eq, h.indexed]
  constructor
  · rintro hp n hn rfl
    exact hp n.addr hn
  · rintro hn p hp
    exact hn _ hp rfl

/-! ### The methods keep the index in step with the list -/

theorem Valid.touchKey (h : e.Valid) (k : KeyType) : (e.touchKey k).Valid := by
  unfold LRUEvictor.touchKey
  cases hk : e.addressDict k with
  | some p =>
    have hn : (⟨p, k⟩ : Node) ∈ e.linkedList := (h.indexed k p).1 hk
    dsimp only
    split
    · -- the address of a moved node is the one that the index already holds
      have hhead : ((splice e.linkedList p).head?.map Node.addr) = some p := by
        rw [splice_eq h.nodup_addr hn]; rfl
      refine ⟨nodup_splice h.nodup_addr hn, fun k' p' => ?_⟩
      dsimp only
      rw [hhead, ← hk, Function.update_eq_self, h.indexed]
      exact (mem_splice h.nodup_addr hn).symm
    · exact h
  | none =>
    -- the new node has an address that is not in use, and a key that the index does not know
    have hfresh : ∀ m ∈ e.linkedList, m.addr ≠ newAddr e.linkedList :=
      fun m hm => Nat.ne_of_lt (lt_newAddr hm)
    refine ⟨?_, fun k' p' => ?_⟩
    · simp only [List.map_cons, List.nodup_cons, List.mem_map, not_exists, not_and]
      exact ⟨hfresh, h.nodup_addr⟩
    · dsimp only
      rw [List.mem_cons, Node.mk.injEq]
      by_cases hkk : k' = k
      · subst hkk
        rw [Function.update_self]
        have hno : (⟨p', k'⟩ : Node) ∉ e.linkedList := fun hm => by
          rw [(h.indexed k' p').2 hm] at hk; cases hk
        simp [hno, eq_comm]
      · rw [Function.update_of_ne hkk, h.indexed]
        simp [hkk]

theorem Valid.evict (h : e.Valid) : e.evict.2.Valid := by
  unfold LRUEvictor.evict
  cases hl : e.linkedList.getLast? with
  | none => exact h
  | some n =>
    obtain ⟨l, hl⟩ : ∃ l, e.linkedList = l ++ [n] := by
      rw [List.getLast?_eq_some_iff] at hl; exact hl
    have haddr := h.nodup_addr
    have hkeys := h.nodup_keys
    rw [keys, hl, List.map_append, List.nodup_append] at hkeys
    rw [hl, List.map_append, List.nodup_append] at haddr
    refine ⟨by simpa [hl] using haddr.1, fun k p => ?_⟩
    simp only [hl, List.dropLast_concat]
    -- no other node has the key of the last one, so no more than its entry has to go
    by_cases hk : k = n.key
    · subst hk
      rw [Function.update_self]
      simp only [reduceCtorEq, false_iff]
      intro hm
      exact hkeys.2.2 n.key (List.mem_map.2 ⟨_, hm, rfl⟩) n.key (by simp) rfl
    · rw [Function.update_of_ne hk, h.indexed, hl, List.mem_append, List.mem_singleton]
      constructor
      · rintro (hm | rfl)
        exacts [hm, (hk rfl).elim]
      · exact .inl

/-! ### The methods on the keys -/

/-- **Touching a key moves it to the front of the recency list.** -/
theorem keys_touchKey (h : e.Valid) (k : KeyType) :
    (e.touchKey k).keys = k :: e.keys.erase k := by
  unfold LRUEvictor.touchKey
  cases hk : e.addressDict k with
  | none =>
    rw [List.erase_of_not_mem (h.addressDict_eq_none.1 hk)]
    rfl
  | some p =>
    have hn : (⟨p, k⟩ : Node) ∈ e.linkedList := (h.indexed k p).1 hk
    dsimp only
    split
    · rw [h.nodup_keys.erase_eq_filter k]
      simp only [keys, splice_eq h.nodup_addr hn, List.map_cons, List.filter_map]
      congr 2
      refine List.filter_congr fun m hm => ?_
      -- a node of the list has the address `p` exactly when it has the key `k`
      have hiff : m.addr = p ↔ m.key = k := by
        constructor
        · intro ha
          rw [eq_of_addr_eq h.nodup_addr hm hn ha]
        · intro hkey
          have h2 : e.addressDict k = some m.addr := (h.indexed _ _).2 (hkey ▸ hm)
          exact Option.some.inj (h2.symm.trans hk)
      rw [Bool.eq_iff_iff]
      simp [hiff]
    · rename_i hb
      have hb' : e.begin = some p := (not_not.1 hb).symm
      cases hl : e.linkedList with
      | nil => simp [hl] at hn
      | cons m l =>
        have ha : m.addr = p := by simpa [begin, hl] using hb'
        have hm : m = ⟨p, k⟩ := eq_of_addr_eq h.nodup_addr (by simp [hl]) hn ha
        simp [keys, hl, hm]

theorem touchKey_eq_self_iff (h : e.Valid) {k : KeyType} :
    e.touchKey k = e ↔ e.keys.head? = some k := by
  constructor
  · intro heq
    rw [← heq, keys_touchKey h]
    rfl
  · intro hhead
    obtain ⟨n, hn, rfl⟩ : ∃ n, e.linkedList.head? = some n ∧ n.key = k := by
      rwa [keys, List.head?_map, Option.map_eq_some_iff] at hhead
    have hk : e.addressDict n.key = some n.addr :=
      (h.indexed _ _).2 (List.mem_of_mem_head? hn)
    simp [LRUEvictor.touchKey, hk, begin, hn]

/-- **Evicting removes the last key of the recency list.** -/
theorem keys_evict (e : LRUEvictor) :
    e.evict.1 = e.keys.getLast?.getD [] ∧ e.evict.2.keys = e.keys.dropLast := by
  unfold LRUEvictor.evict
  cases hl : e.linkedList.getLast? with
  | none =>
    have : e.linkedList = [] := by simpa using hl
    simp [keys, this]
  | some n => simp [keys, hl, List.getLast?_map, List.map_dropLast]

end LRUEvictor

/-- The evictors that the code can build: their index agrees with their list. -/
abbrev LRU := {e : LRUEvictor // e.Valid}

namespace LRU

/-- A new evictor. -/
def new : LRU := ⟨LRUEvictor.new, LRUEvictor.valid_new⟩

/-- The keys, the most recently touched first. -/
def keys (e : LRU) : List KeyType := e.1.keys

instance : EvictionOrder LRU where
  touchKey e k := ⟨e.1.touchKey k, e.2.touchKey k⟩
  evict e := (e.1.evict.1, ⟨e.1.evict.2, e.2.evict⟩)
  order e := e.keys.reverse
  evict_cons e k ks h := by
    have h0 : e.1.keys = ks.reverse ++ [k] := by
      have := congrArg List.reverse h
      simpa [keys] using this
    have := LRUEvictor.keys_evict e.1
    simp_all [keys]
  mem_touchKey e k x := by
    simp only [keys, LRUEvictor.keys_touchKey e.2, List.mem_reverse, List.mem_cons]
    by_cases hx : x = k
    · simp [hx]
    · simp [hx, List.mem_erase_of_ne hx]

variable (e : LRU)

theorem nodup_keys : e.keys.Nodup := e.2.nodup_keys

theorem keys_touchKey (k : KeyType) : (Evictor.touchKey e k).keys = k :: e.keys.erase k :=
  LRUEvictor.keys_touchKey e.2 k

theorem touchKey_eq_self_iff {k : KeyType} :
    Evictor.touchKey e k = e ↔ e.keys.head? = some k := by
  rw [← Subtype.val_inj]
  exact LRUEvictor.touchKey_eq_self_iff e.2

theorem evict_fst : (Evictor.evict e).1 = e.keys.getLast?.getD [] :=
  (LRUEvictor.keys_evict e.1).1

theorem keys_evict : (Evictor.evict e).2.keys = e.keys.dropLast :=
  (LRUEvictor.keys_evict e.1).2

end LRU

end CrankItUp
