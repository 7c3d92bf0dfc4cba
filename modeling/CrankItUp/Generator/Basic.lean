import CrankItUp.Server.Basic
import Mathlib.Algebra.Order.Ring.Rat

/-!
# The generator of requests

The benchmark sends requests that are drawn at random: a method, one of the keys of a pool, and for
a `PUT` a value.  The generator keeps a list of the targets that it believes to be stored, and
draws from it most of the keys of its `GET` requests.

* `Draws` : what is drawn for one request.
* `KeyGenerator` : the pool and the known keys; `RequestGenerator.generateRequest` : one request.
* `generator` : the generator as a machine that is given draws.

The probabilities and the bounds that they are compared with are numbers of type `double`, which
are rational.
-/

namespace CrankItUp

/-- `KEY_POOL_SIZE`. -/
def keyPoolSize : ℕ := 10000

/-- `ALPHANUMERIC`. -/
def alphanumeric : Bytes := str "0123456789abcdefghijklmnopqrstuwxyzABCDEFGHIJKLMNOPQRSTUVWXYZ"

/-- The keys that `generate_key_` builds. -/
abbrev PoolKey := {k : KeyType // ∀ c ∈ k, c ∈ alphanumeric}

/-- What is drawn for a request, whether it is used or not. -/
structure Draws where
  /-- The probability that decides on the method. -/
  method : ℚ
  /-- The index of the random key. -/
  poolIndex : Fin keyPoolSize
  /-- The probability that decides between a random and a known key. -/
  known : ℚ
  /-- `rand()`. -/
  rand : ℕ
  /-- The length of the value before it is reduced. -/
  valueLength : UInt32
  /-- The indices of the letters of the value. -/
  valueChars : ℕ → Fin alphanumeric.length

/-! ### Keys -/

/-- The pool of keys, and the targets of the known keys. -/
structure KeyGenerator where
  keyPool : Fin keyPoolSize → PoolKey
  keyCache : List Bytes

namespace KeyGenerator

variable (g : KeyGenerator)

def generateKey (d : Draws) : KeyType := (g.keyPool d.poolIndex).1

def addKeyToCache (key : Bytes) : KeyGenerator := { g with keyCache := g.keyCache ++ [key] }

def isKeyInCache (key : Bytes) : Bool := decide (g.keyCache.count key ≠ 0)

/-- `static_cast<int>(key_cache.size())`. -/
def cacheSize : ℤ := Int.bmod g.keyCache.length (2 ^ 32)

/-- A known key; the remainder has the sign of `rand()`. -/
def getKeyFromCache (rand : ℕ) : Except Fault Bytes :=
  if g.cacheSize = 0 then .error .divByZero
  else
    match g.keyCache[((rand : ℤ).tmod g.cacheSize).toNat]? with
    | some key => .ok key
    | none => .error .outOfBounds

def getKeyCacheLength : UInt32 := UInt32.ofNat g.keyCache.length

def deleteKeyFromCache (key : Bytes) : KeyGenerator :=
  { g with keyCache := g.keyCache.filter (· ≠ key) }

end KeyGenerator

/-! ### Values and methods -/

/-- A value of the given length, which is first reduced. -/
def generateValue (d : Draws) : Bytes :=
  let lengthToUse := d.valueLength % 500 + 1
  (List.range lengthToUse.toNat).map fun i => alphanumeric.get (d.valueChars i)

/-- The bounds that decide on the method. -/
structure MethodGenerator where
  getCutoff : ℚ
  setCutoff : ℚ

def MethodGenerator.generateMethod (g : MethodGenerator) (d : Draws) : Verb :=
  if d.method ≤ g.getCutoff then .get
  else if d.method ≤ g.setCutoff then .put
  else .delete

/-! ### Requests -/

/-- `known_cutoff`, the `double` next to 0.95. -/
def knownCutoff : ℚ := 4278419646001971 / 4503599627370496

structure RequestGenerator where
  methodGenerator : MethodGenerator
  keyGenerator : KeyGenerator

namespace RequestGenerator

/-- A new generator; it knows no keys. -/
def new (methodGenerator : MethodGenerator) (keyPool : Fin keyPoolSize → PoolKey) :
    RequestGenerator :=
  ⟨methodGenerator, keyPool, []⟩

variable (g : RequestGenerator)

/-- Replace the known keys. -/
def withKeys (keyGenerator : KeyGenerator) : RequestGenerator :=
  { g with keyGenerator := keyGenerator }

/-- Generate a request. -/
def generateRequest (d : Draws) : Except Fault (Request × RequestGenerator) :=
  let randomKey := g.keyGenerator.generateKey d
  match g.methodGenerator.generateMethod d with
  | .get =>
    if 0 < g.keyGenerator.getKeyCacheLength ∧ d.known ≤ knownCutoff then do
      let target ← g.keyGenerator.getKeyFromCache d.rand
      return (⟨11, .get, target⟩, g)
    else return (⟨11, .get, 0x2F :: randomKey⟩, g)
  | .put =>
    let target := 0x2F :: (randomKey ++ 0x2F :: generateValue d)
    let keyForCache := 0x2F :: randomKey
    if g.keyGenerator.isKeyInCache keyForCache = false then
      return (⟨11, .put, target⟩, g.withKeys (g.keyGenerator.addKeyToCache keyForCache))
    else return (⟨11, .put, target⟩, g)
  | .delete =>
    let target := 0x2F :: randomKey
    if 0 < g.keyGenerator.getKeyCacheLength ∧ d.known ≤ knownCutoff then do
      let key ← g.keyGenerator.getKeyFromCache d.rand
      return (⟨11, .delete, target⟩, g.withKeys (g.keyGenerator.deleteKeyFromCache key))
    else return (⟨11, .delete, target⟩, g)
  | _ => return (⟨11, .other, []⟩, g)

end RequestGenerator

/-- The generator as a machine. -/
def generator : Machine RequestGenerator Draws Request Fault := ⟨fun g d => g.generateRequest d⟩

end CrankItUp
