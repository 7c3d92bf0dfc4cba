import CrankItUp.Cache.Basic
import Mathlib.Data.Finmap

/-!
# What a cache is for

The abstract model of the cache: a finite map from keys to sizes and values, a counter of bytes,
a limit and an evictor.  There is no table, and with it neither a hash function nor a load
factor; growth and collisions do not exist.

* `Store` : the states; `Store.get`, `Store.del`, `Store.set` : the operations.
* `store` : the machine that serves the calls of the public interface with a `Store`.
* `Store.setBody_of_fits` and the lemmas next to it : what an activation of `set` does.
-/

namespace CrankItUp

/-- What is stored under a key. -/
structure Entry where
  size : UInt32
  val : ValType
  deriving DecidableEq

/-- A finite map with a limit on the bytes in use. -/
structure Store (ε : Type) where
  maxmem : UInt32
  entries : Finmap fun _ : KeyType => Entry
  used : UInt32
  evictor : Option ε

namespace Store

/-- An empty store. -/
def new {ε : Type} (maxmem : UInt32) (evictor : Option ε) : Store ε := ⟨maxmem, ∅, 0, evictor⟩

variable {ε : Type} (st : Store ε)

/-- What is stored under the key. -/
def find (key : KeyType) : Option Entry := st.entries.lookup key

/-- The size fits into what is left. -/
def Fits (size : UInt32) : Prop := st.used + size ≤ st.maxmem

instance (size : UInt32) : Decidable (st.Fits size) := inferInstanceAs (Decidable (_ ≤ _))

/-- Store an entry under a new key. -/
def insert (key : KeyType) (x : Entry) : Store ε :=
  { st with entries := st.entries.insert key x, used := st.used + x.size }

/-- Remove the entry that the key has. -/
def remove (key : KeyType) (x : Entry) : Store ε :=
  { st with entries := st.entries.erase key, used := st.used - x.size }

/-- Remove all entries. -/
def clear : Store ε := { st with entries := ∅, used := 0 }

/-- Remove a key, if it is there. -/
def del (key : KeyType) : Bool × Store ε :=
  match st.find key with
  | some x => (true, st.remove key x)
  | none => (false, st)

section Evictor

variable [Evictor ε]

/-- Tell the evictor that the key has been used. -/
def touchKey (key : KeyType) : Store ε :=
  { st with evictor := st.evictor.map fun e => Evictor.touchKey e key }

/-- The value of the key, and the size that is recomputed from it. -/
def get (key : KeyType) (valSize : UInt32) : Except Fault (ValType × UInt32 × Store ε) :=
  match st.find key with
  | some x =>
    match x.val with
    | some val => .ok (some val, UInt32.ofNat (val.strlen + 1), st.touchKey key)
    | none => .error .nullStrlen
  | none => .ok (none, valSize, st)

/-- One activation of `set`. -/
def setBody (key : KeyType) (val : ValType) (size : UInt32) : Except Fault (Exit × Store ε) :=
  if st.Fits size then
    match st.find key with
    | some x =>
      match x.val with
      | some _ => .ok (.overwrites, (st.remove key x).touchKey key)
      | none => .error .nullStrlen
    | none => .ok (.stored, (st.insert key ⟨size, val⟩).touchKey key)
  else
    match st.evictor with
    | some e =>
      let (keyToRemove, e) := Evictor.evict e
      let (removed, st) := { st with evictor := some e }.del keyToRemove
      .ok (if removed then .evicts keyToRemove else .misses keyToRemove, st)
    | none => .ok (.refused, st)

/-- The recursion of `set` with given arguments. -/
def setLoop (key : KeyType) (val : ValType) (size : UInt32) : Loop (Store ε) Exit Fault where
  body st := st.setBody key val size
  again := Exit.again

/-- Store a value, after removing the old one, or others, if necessary. -/
def set (key : KeyType) (val : ValType) (size : UInt32) : Except Fault (List Exit × Store ε) :=
  (setLoop key val size).run .deep (st.entries.keys.card + 1) st

/-- One call. -/
def step : Op → Except Fault (Result × Store ε)
  | .set key val size => (st.set key val size).map fun (exits, st) => (.set exits, st)
  | .get key valSize =>
    (st.get key valSize).map fun (val, valSize, st) => (.get val valSize, st)
  | .del key => .ok (.del (st.del key).1, (st.del key).2)
  | .spaceUsed => .ok (.spaceUsed st.used, st)
  | .reset => .ok (.reset, st.clear)

/-- Every activation of `set key _ size` in the call starts in a store with `P · key size`. -/
def EachActivation (P : Store ε → KeyType → UInt32 → Prop) (st : Store ε) : Op → Prop
  | .set key val size => ∀ a, (setLoop key val size).Entered st a → P a key size
  | _ => True

end Evictor

variable {st} {st' : Store ε} {key k : KeyType} {val : ValType} {size n : UInt32} {x : Entry}

theorem ext_find (hmax : st.maxmem = st'.maxmem) (hfind : ∀ k, st.find k = st'.find k)
    (hused : st.used = st'.used) (hev : st.evictor = st'.evictor) : st = st' := by
  obtain ⟨_, entries, _, _⟩ := st
  obtain ⟨_, entries', _, _⟩ := st'
  obtain rfl : entries = entries' := Finmap.ext_lookup hfind
  cases hmax; cases hused; cases hev
  rfl

@[simp] theorem find_new (maxmem : UInt32) (e : Option ε) (k : KeyType) :
    (new maxmem e).find k = none := Finmap.lookup_empty k

@[simp] theorem find_clear (k : KeyType) : st.clear.find k = none := Finmap.lookup_empty k

@[simp] theorem find_insert_self : (st.insert key x).find key = some x := Finmap.lookup_insert _

theorem find_insert_ne (h : k ≠ key) : (st.insert key x).find k = st.find k :=
  Finmap.lookup_insert_of_ne _ h

@[simp] theorem find_remove_self : (st.remove key x).find key = none := Finmap.lookup_erase _ _

theorem find_remove_ne (h : k ≠ key) : (st.remove key x).find k = st.find k :=
  Finmap.lookup_erase_ne h

theorem card_remove (h : st.find key = some x) :
    (st.remove key x).entries.keys.card < st.entries.keys.card := by
  have hmem : key ∈ st.entries.keys := Finmap.mem_keys.2 (Finmap.mem_of_lookup_eq_some h)
  rw [remove, Finmap.keys_erase]
  exact Finset.card_erase_lt_of_mem hmem

/-! ### An activation of `set` -/

section Evictor

variable [Evictor ε] {e : ε}

@[simp] theorem touchKey_find : (st.touchKey key).find k = st.find k := rfl

theorem setBody_of_fits (h : st.Fits size) (hf : st.find key = none) :
    st.setBody key val size = .ok (.stored, (st.insert key ⟨size, val⟩).touchKey key) := by
  simp [setBody, h, hf]

theorem setBody_of_present (h : st.Fits size) (hf : st.find key = some x) {w : CStr}
    (hx : x.val = some w) :
    st.setBody key val size = .ok (.overwrites, (st.remove key x).touchKey key) := by
  simp [setBody, h, hf, hx]

theorem setBody_of_null (h : st.Fits size) (hf : st.find key = some x) (hx : x.val = none) :
    st.setBody key val size = .error .nullStrlen := by
  simp [setBody, h, hf, hx]

theorem setBody_of_evicts (h : ¬ st.Fits size) (he : st.evictor = some e)
    (hf : st.find (Evictor.evict e).1 = some x) :
    st.setBody key val size = .ok (.evicts (Evictor.evict e).1,
      { st.remove (Evictor.evict e).1 x with evictor := some (Evictor.evict e).2 }) := by
  have hf' : { st with evictor := some (Evictor.evict e).2 }.find (Evictor.evict e).1 = some x :=
    hf
  simp [setBody, h, he, del, hf', remove]

theorem setBody_of_misses (h : ¬ st.Fits size) (he : st.evictor = some e)
    (hf : st.find (Evictor.evict e).1 = none) :
    st.setBody key val size = .ok (.misses (Evictor.evict e).1,
      { st with evictor := some (Evictor.evict e).2 }) := by
  have hf' : { st with evictor := some (Evictor.evict e).2 }.find (Evictor.evict e).1 = none :=
    hf
  simp [setBody, h, he, del, hf']

theorem setBody_of_refused (h : ¬ st.Fits size) (he : st.evictor = none) :
    st.setBody key val size = .ok (.refused, st) := by
  simp [setBody, h, he]

/-- The ways through an activation of `set`. -/
inductive Activation (st : Store ε) (key : KeyType) (val : ValType) (size : UInt32) :
    Exit → Store ε → Prop
  | stored : st.Fits size → st.find key = none →
      Activation st key val size .stored ((st.insert key ⟨size, val⟩).touchKey key)
  | overwrites {x : Entry} {w : CStr} : st.Fits size → st.find key = some x → x.val = some w →
      Activation st key val size .overwrites ((st.remove key x).touchKey key)
  | evicts {e : ε} {x : Entry} : ¬ st.Fits size → st.evictor = some e →
      st.find (Evictor.evict e).1 = some x →
      Activation st key val size (.evicts (Evictor.evict e).1)
        { st.remove (Evictor.evict e).1 x with evictor := some (Evictor.evict e).2 }
  | misses {e : ε} : ¬ st.Fits size → st.evictor = some e → st.find (Evictor.evict e).1 = none →
      Activation st key val size (.misses (Evictor.evict e).1)
        { st with evictor := some (Evictor.evict e).2 }
  | refused : ¬ st.Fits size → st.evictor = none → Activation st key val size .refused st

theorem setBody_cases {e : Exit} (h : st.setBody key val size = .ok (e, st')) :
    st.Activation key val size e st' := by
  by_cases hfit : st.Fits size
  · cases hf : st.find key with
    | none => rw [setBody_of_fits hfit hf] at h; cases h; exact .stored hfit hf
    | some x =>
      cases hx : x.val with
      | none => rw [setBody_of_null hfit hf hx] at h; cases h
      | some w => rw [setBody_of_present hfit hf hx] at h; cases h; exact .overwrites hfit hf hx
  · cases he : st.evictor with
    | none => rw [setBody_of_refused hfit he] at h; cases h; exact .refused hfit he
    | some e =>
      cases hf : st.find (Evictor.evict e).1 with
      | none => rw [setBody_of_misses hfit he hf] at h; cases h; exact .misses hfit he hf
      | some x => rw [setBody_of_evicts hfit he hf] at h; cases h; exact .evicts hfit he hf

theorem card_of_calls (h : (setLoop key val size).Calls st st') :
    st'.entries.keys.card < st.entries.keys.card := by
  obtain ⟨e, hb, hag⟩ := h
  cases setBody_cases hb with
  | overwrites _ hf _ => exact card_remove hf
  | evicts _ _ hf => exact card_remove hf
  | stored => simp [setLoop, Exit.again] at hag
  | misses => simp [setLoop, Exit.again] at hag
  | refused => simp [setLoop, Exit.again] at hag

theorem set_eq_run {m : ℕ} (h : st.entries.keys.card < m) :
    st.set key val size = (setLoop key val size).run .deep m st :=
  Loop.run_eq_run (μ := fun a => a.entries.keys.card) (fun _ _ => card_of_calls) _ _ _
    (Nat.lt_succ_self _) h

end Evictor

end Store

/-- The abstract cache as a machine. -/
def store (ε : Type) [Evictor ε] : Machine (Store ε) Op Result Fault := ⟨fun st => st.step⟩

end CrankItUp
