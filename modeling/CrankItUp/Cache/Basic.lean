import CrankItUp.Evictor.Basic
import CrankItUp.Machine.Loop
import Mathlib.Algebra.Group.Int.Defs

/-!
# The library cache

`Impl` is the cache of the library: a table of buckets, each a list of triples (key, size,
value), with a byte counter, an element counter and an evictor.  The definitions follow the
methods of `Cache::Impl`.

* Sizes and counters are `UInt32`, and all arithmetic on them wraps as it does in the code.
* A method that dies (a division by zero, `strlen` of a null pointer, a write outside the table)
  ends in a `Fault`.
* `set` calls itself in tail position, always with the same arguments.  `setBody` is one
  activation, `Exit` says how it ends, and `set` runs activations until one returns.  `set`
  hands back the list of their exits, which the code does not do.
* `library` is the cache as a machine whose calls are those of the public interface.
-/

namespace CrankItUp

/-! ### Values and numbers -/

/-- The memory that a `const char*` points to: some bytes with a NUL among them. -/
structure CStr where
  bytes : Bytes
  terminated : 0 ∈ bytes
  deriving DecidableEq

namespace CStr

/-- A string followed by its terminating NUL. -/
def ofBytes (b : Bytes) : CStr := ⟨b ++ [0], by simp⟩

/-- The number of bytes before the first NUL. -/
def strlen (v : CStr) : ℕ := v.bytes.idxOf 0

end CStr

/-- Values are pointers; `none` is the null pointer. -/
abbrev ValType := Option CStr

/-- The values of a `float`: every finite one is `m / 2 ^ k` for some `m` and `k`. -/
inductive FloatVal where
  | finite (m : ℤ) (k : ℕ)
  | inf (negative : Bool)
  | nan
  deriving DecidableEq, Repr

/-- `f < n`, compared as doubles. -/
def FloatVal.lt : FloatVal → ℕ → Bool
  | .finite m k, n => decide (m < n * 2 ^ k)
  | .inf negative, _ => negative
  | .nan, _ => false

/-- The ways in which a call can end without returning. -/
inductive Fault where
  /-- A remainder or quotient by the number of buckets when there are none. -/
  | divByZero
  /-- A bucket is accessed that the table does not have. -/
  | outOfBounds
  /-- `strlen` is applied to the null pointer. -/
  | nullStrlen
  /-- An assertion fails. -/
  | assertion
  /-- A substring begins behind the end of its string. -/
  | outOfRange
  /-- More nested calls of `set` than `Impl.set` provides for (`Impl.set_ne_deep`). -/
  | deep
  deriving DecidableEq, Repr

/-! ### The table -/

/-- A key with the size and the value stored for it. -/
structure Triple where
  key : KeyType
  size : UInt32
  val : ValType
  deriving DecidableEq

/-- A value-initialised triple. -/
def Triple.default : Triple := ⟨[], 0, none⟩

/-- Triples in the same bucket, in order of insertion. -/
abbrev Bucket := List Triple

/-- `dict[i].push_back(t)`. -/
def pushBack (dict : List Bucket) (i : ℕ) (t : Triple) : Except Fault (List Bucket) :=
  if i < dict.length then .ok (dict.set i (dict.getD i [] ++ [t])) else .error .outOfBounds

/-- Find the first triple with the key and erase it.  The result is the size that is read
through the iterator after the erase, and the remaining bucket.  The iterator still points to
the slot of the erased triple: by then this holds the triple that followed, or, when the last
triple was erased, what is left of that triple. -/
def eraseKey (key : KeyType) : Bucket → Option (UInt32 × Bucket)
  | [] => none
  | it :: rest =>
    if it.key = key then some ((rest.head?.getD it).size, rest)
    else (eraseKey key rest).map fun (size, bucket) => (size, it :: bucket)

/-- The hash function used when none is given; `char` is signed. -/
def defaultHasher (key : KeyType) : UInt64 :=
  (key.zipIdx.foldl (fun hash (c, i) => hash + UInt32.ofNat i * c.toInt8.toInt32.toUInt32)
    (0 : UInt32)).toUInt64

/-- The cache object of the library. -/
structure Impl (ε : Type) where
  maxmem : UInt32
  dict : List Bucket
  evictor : Option ε
  hasher : KeyType → UInt64
  maxLoadFactor : FloatVal
  spaceUsed : UInt32
  numElements : UInt32

/-- How an activation of `set` ends. -/
inductive Exit where
  /-- The triple was pushed into its bucket. -/
  | stored
  /-- The key was present; its entry was deleted, and `set` is called again. -/
  | overwrites
  /-- The evictor's key was deleted, and `set` is called again. -/
  | evicts (key : KeyType)
  /-- The evictor's key is not in the table: `set` gives up. -/
  | misses (key : KeyType)
  /-- The value does not fit, and there is no evictor. -/
  | refused
  deriving DecidableEq, Repr

/-- The exits that are recursive calls. -/
def Exit.again : Exit → Bool
  | .overwrites => true
  | .evicts _ => true
  | _ => false

namespace Impl

/-- `DEFAULT_CAPACITY`. -/
def defaultCapacity : ℕ := 2

/-- A new cache; a null `hasher` is replaced by the default one. -/
def new {ε : Type} (maxmem : UInt32) (maxLoadFactor : FloatVal) (evictor : Option ε)
    (hasher : Option (KeyType → UInt64)) : Impl ε where
  maxmem := maxmem
  dict := List.replicate defaultCapacity []
  evictor := evictor
  hasher := hasher.getD defaultHasher
  maxLoadFactor := maxLoadFactor
  spaceUsed := 0
  numElements := 0

variable {ε : Type} (s : Impl ε)

/-- The bucket with index `i`. -/
def bucket (i : ℕ) : Bucket := s.dict.getD i []

/-- All triples in the table. -/
def triples : List Triple := s.dict.flatten

/-- `hasher_(key) % dict_.size()`. -/
def bucketIndex (key : KeyType) : Except Fault ℕ :=
  if s.dict.length = 0 then .error .divByZero
  else .ok ((s.hasher key).toNat % s.dict.length)

/-- The quotient is that of whole numbers; it is converted to `double` afterwards. -/
def getLoadFactor : Except Fault ℕ :=
  if s.dict.length = 0 then .error .divByZero
  else .ok (s.numElements.toNat / s.dict.length)

/-- The number of buckets after a `resize`. -/
def newSize : UInt32 := UInt32.ofNat (2 * s.dict.length)

/-- Move every triple to a table of twice the size.  The new index is the remainder by the
size of the old table. -/
def resize : Except Fault (Impl ε) := do
  let tempDict ← s.dict.foldlM (fun tempDict bucket =>
    bucket.foldlM (fun tempDict curTrip => do
      -- `dict_` still has its old size here
      let newIndex ← s.bucketIndex curTrip.key
      pushBack tempDict (UInt32.ofNat newIndex).toNat curTrip) tempDict)
    (List.replicate s.newSize.toNat [])
  return { s with dict := tempDict }

/-- Delete every triple.  Each bucket becomes a bucket of one default triple, and neither the
element counter nor the evictor is touched. -/
def reset : Impl ε :=
  { s with dict := s.dict.map fun _ => [Triple.default], spaceUsed := 0 }

/-- Delete the first triple with the key in its bucket. -/
def del (key : KeyType) : Except Fault (Bool × Impl ε) := do
  let i ← s.bucketIndex key
  match eraseKey key (s.bucket i) with
  | some (size, bucket) =>
    return (true, { s with
      dict := s.dict.set i bucket
      numElements := s.numElements - 1
      spaceUsed := s.spaceUsed - size })
  | none => return (false, s)

section Evictor

variable [Evictor ε]

/-- Tell the evictor, if there is one, that the key has been set or get. -/
def touchKey (key : KeyType) : Impl ε :=
  { s with evictor := s.evictor.map fun e => Evictor.touchKey e key }

/-- The value of the first triple with the key in its bucket, and the size as recomputed from
it; a null pointer and the given size when there is none. -/
def get (key : KeyType) (valSize : UInt32) : Except Fault (ValType × UInt32 × Impl ε) := do
  let i ← s.bucketIndex key
  match (s.bucket i).find? fun it => it.key = key with
  | some it =>
    match it.val with
    | some storedVal => return (some storedVal, UInt32.ofNat (storedVal.strlen + 1), s.touchKey key)
    | none => throw .nullStrlen
  | none => return (none, valSize, s)

/-- The growth check at the start of `set`. -/
def grow : Except Fault (Impl ε) := do
  let loadFactor ← s.getLoadFactor
  if s.maxLoadFactor.lt loadFactor then s.resize else return s

/-- One activation of `set`; the exits that are `again` stand for the recursive calls. -/
def setBody (key : KeyType) (val : ValType) (size : UInt32) : Except Fault (Exit × Impl ε) := do
  let s ← s.grow
  if s.spaceUsed + size ≤ s.maxmem then
    let (valuePointer, _, s) ← s.get key 0
    match valuePointer with
    | some _ =>
      -- `get` has touched the key; the result of `del` is not looked at
      let (_, s) ← s.del key
      return (.overwrites, s)
    | none =>
      let i ← s.bucketIndex key
      let dict ← pushBack s.dict i ⟨key, size, val⟩
      let s := { s with dict := dict }.touchKey key
      return (.stored, { s with
        numElements := s.numElements + 1
        spaceUsed := s.spaceUsed + size })
  else
    match s.evictor with
    | some e =>
      let (keyToRemove, e) := Evictor.evict e
      let (removed, s) ← { s with evictor := some e }.del keyToRemove
      if removed then return (.evicts keyToRemove, s) else return (.misses keyToRemove, s)
    | none => return (.refused, s)

/-- The recursion of `set` with given arguments. -/
def setLoop (key : KeyType) (val : ValType) (size : UInt32) : Loop (Impl ε) Exit Fault where
  body s := s.setBody key val size
  again := Exit.again

/-- Add a key and its value, evicting other keys when it does not fit.  Every recursive call
has deleted a triple, so that there are at most as many as there are triples. -/
def set (key : KeyType) (val : ValType) (size : UInt32) : Except Fault (List Exit × Impl ε) :=
  (setLoop key val size).run .deep (s.triples.length + 1) s

end Evictor

end Impl

/-! ### The public interface -/

/-- A call of the public interface; `get` is called with a variable for the size. -/
inductive Op where
  | set (key : KeyType) (val : ValType) (size : UInt32)
  | get (key : KeyType) (valSize : UInt32)
  | del (key : KeyType)
  | spaceUsed
  | reset
  deriving DecidableEq

/-- What a call returns; `set` returns nothing, but its exits are recorded. -/
inductive Result where
  | set (exits : List Exit)
  | get (val : ValType) (valSize : UInt32)
  | del (deleted : Bool)
  | spaceUsed (size : UInt32)
  | reset
  deriving DecidableEq

namespace Impl

variable {ε : Type} [Evictor ε]

/-- One call. -/
def step (s : Impl ε) : Op → Except Fault (Result × Impl ε)
  | .set key val size => do
    let (exits, s) ← s.set key val size
    return (.set exits, s)
  | .get key valSize => do
    let (val, valSize, s) ← s.get key valSize
    return (.get val valSize, s)
  | .del key => do
    let (deleted, s) ← s.del key
    return (.del deleted, s)
  | .spaceUsed => return (.spaceUsed s.spaceUsed, s)
  | .reset => return (.reset, s.reset)

end Impl

/-- The library cache as a machine. -/
def library (ε : Type) [Evictor ε] : Machine (Impl ε) Op Result Fault := ⟨Impl.step⟩

end CrankItUp
