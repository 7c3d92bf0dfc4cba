import Mathlib.Data.Nat.Notation
import Mathlib.Logic.Function.Basic

/-!
# Evictors

The interface of eviction policies (`Evictor`), and the first-in-first-out policy.

## Main definitions

* `Bytes` : C++ strings; `KeyType` : the strings used as keys.
* `Evictor ε` : `ε` has the two methods of the interface.  Nothing is asked of them: an instance
  may keep any state and answer anything.
* `EvictionOrder ε` : the keys an evictor would hand out one after another form a list that
  touching a key only extends or permutes.  Both policies of the repository are of this kind.
* `FifoEvictor`.
-/

namespace CrankItUp

/-- A `std::string`: a sequence of bytes of any values. -/
abbrev Bytes := List UInt8

/-- The bytes of a string literal. -/
def str (s : String) : Bytes := s.toList.map fun c => UInt8.ofNat c.toNat

/-- Keys of caches and evictors. -/
abbrev KeyType := Bytes

/-- The interface of eviction policies. -/
class Evictor (ε : Type) where
  /-- A certain key has been set or get. -/
  touchKey : ε → KeyType → ε
  /-- The next key to evict, which the evictor forgets; the empty key when it knows none. -/
  evict : ε → KeyType × ε

/-- Policies that keep the keys to hand out in a list, the next one first. -/
class EvictionOrder (ε : Type) extends Evictor ε where
  /-- The keys in the order in which they would be evicted. -/
  order : ε → List KeyType
  evict_cons : ∀ e k ks, order e = k :: ks → (evict e).1 = k ∧ order (evict e).2 = ks
  mem_touchKey : ∀ e k x, x ∈ order (touchKey e k) ↔ x = k ∨ x ∈ order e

/-! ### First in, first out -/

/-- The first-in-first-out policy: a queue of keys, its front first. -/
structure FifoEvictor where
  queue : List KeyType
  deriving DecidableEq, Repr

namespace FifoEvictor

/-- A new evictor. -/
def new : FifoEvictor := ⟨[]⟩

/-- `queue_.push(key)`. -/
def touchKey (e : FifoEvictor) (key : KeyType) : FifoEvictor := ⟨e.queue ++ [key]⟩

/-- Pop the front of the queue. -/
def evict (e : FifoEvictor) : KeyType × FifoEvictor :=
  match e.queue with
  | key :: queue => (key, ⟨queue⟩)
  | [] => ([], e)

instance : EvictionOrder FifoEvictor where
  touchKey := touchKey
  evict := evict
  order e := e.queue
  evict_cons e k ks h := by simp only [evict, h, and_self]
  mem_touchKey e k x := by
    simp only [touchKey, List.mem_append, List.mem_singleton]
    exact or_comm

end FifoEvictor

end CrankItUp
