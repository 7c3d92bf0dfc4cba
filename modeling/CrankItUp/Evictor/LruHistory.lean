import CrankItUp.Evictor.Lru
import CrankItUp.Machine.RecencyList

/-!
# The least-recently-used evictor is a recency list

The evictor's two structures, the linked list and the index, together behave as one list of keys.

* `lruEvictor` : the evictor as a machine.
* `LRUEvictor.Shows` : the evictor is valid, and its keys are those of the list.
* `LRUEvictor.step_agree` : a call keeps this, and has the same answer as on the list.
* `LRUEvictor.history` : what is known after any calls about the keys, about the index, and about
  the keys that are evicted from then on.
-/

namespace CrankItUp

open RecencyList (lastTouch)

/-- The evictor as a machine; it has no faults. -/
def lruEvictor : Machine LRUEvictor (RecencyList.Op KeyType) (Option KeyType) Empty where
  step e
    | .touch key => .ok (none, e.touchKey key)
    | .evict => .ok (some e.evict.1, e.evict.2)

/-- Recency lists of keys; the empty key is the answer of the empty list. -/
abbrev keyList : Machine (List KeyType) (RecencyList.Op KeyType) (Option KeyType) Empty :=
  RecencyList.machine []

namespace LRUEvictor

variable {e : LRUEvictor} {l : List KeyType} {H : List (RecencyList.Op KeyType × Option KeyType)}

/-- The evictor is valid, and its keys are those of the list. -/
structure Shows (e : LRUEvictor) (l : List KeyType) : Prop where
  valid : e.Valid
  keys_eq : e.keys = l

theorem shows_new : new.Shows [] := ⟨valid_new, rfl⟩

theorem keys_touch (h : e.Valid) (key : KeyType) :
    (e.touchKey key).keys = RecencyList.touch key e.keys := by
  rw [keys_touchKey h, RecencyList.touch]
  -- keys are compared as byte strings here, and by their decidable equality there
  congr 2
  exact lawful_beq_subsingleton _ _

theorem step_agree (h : e.Shows l) (o : RecencyList.Op KeyType) :
    Agree Shows (lruEvictor.step e o) (keyList.step l o) := by
  obtain ⟨hv, rfl⟩ := h
  cases o with
  | touch key => exact ⟨rfl, hv.touchKey key, keys_touch hv key⟩
  | evict =>
    obtain ⟨hkey, hkeys⟩ := keys_evict e
    exact ⟨congrArg some hkey, hv.evict, hkeys⟩

theorem shows_of_reaches (h : lruEvictor.Reaches (fun _ _ => True) new H e) :
    keyList.Reaches (fun _ _ => True) [] H e.keys ∧ e.Valid := by
  obtain ⟨l, hl, hv, rfl⟩ : ∃ l, keyList.Reaches (fun _ _ => True) [] H l ∧ e.Shows l :=
    h.of_agree shows_new fun e l o hs _ => ⟨trivial, step_agree hs o⟩
  exact ⟨hl, hv⟩

/-- Evicting as often as there are keys answers them all, and the empty key from then on. -/
theorem results_drain (h : e.Valid) (n : ℕ) :
    lruEvictor.results e (List.replicate (e.keys.length + n) .evict) =
      (e.keys.reverse.map fun k => .ok (some k)) ++ List.replicate n (.ok (some [])) := by
  have hsame : lruEvictor.results e (List.replicate (e.keys.length + n) .evict) =
      keyList.results e.keys (List.replicate (e.keys.length + n) .evict) :=
    Machine.results_eq_of_agree (Q := Shows) (fun e l o hs _ _ => step_agree hs o) _ _ _
      ⟨h, rfl⟩ (Machine.guarded_true _ _) (Machine.guarded_true _ _)
  rw [hsame, List.replicate_add, RecencyList.results_evict, RecencyList.results_evict_nil]

theorem evict_forgets (h : e.Valid) :
    e.evict.1 ∉ e.evict.2.keys ∧ e.evict.2.addressDict e.evict.1 = none := by
  rw [h.evict.addressDict_eq_none, and_self]
  obtain ⟨hkey, hkeys⟩ := keys_evict e
  have hnodup := h.nodup_keys
  rw [hkey, hkeys]
  cases hk : e.keys using List.reverseRecOn with
  | nil => simp
  | append_singleton l k _ =>
    rw [hk, List.nodup_append] at hnodup
    simpa using fun hmem => hnodup.2.2 k hmem k (by simp) rfl

/-- **The evictor refines a recency list.**  After any calls, the linked list has no duplicates
and is ordered by last touch, and the index has its keys and no others, each with its own node.
Eviction answers and forgets the key that has been touched before all others, so that going on
to evict answers every key once, in the order of their last touch. -/
theorem history (h : lruEvictor.Reaches (fun _ _ => True) new H e) :
    e.keys.Nodup ∧ RecencyList.Ordered H e.keys ∧
      ((e.linkedList.map Node.addr).Nodup ∧
        ∀ k p, e.addressDict k = some p ↔ (⟨p, k⟩ : Node) ∈ e.linkedList) ∧
      (∀ k, e.addressDict k = none ↔ k ∉ e.keys) ∧
      ((e.keys = [] ∧ e.evict.1 = []) ∨ (e.evict.1 ∈ e.keys ∧
        ∀ k ∈ e.keys, k ≠ e.evict.1 → lastTouch e.evict.1 H < lastTouch k H)) ∧
      (e.evict.1 ∉ e.evict.2.keys ∧ e.evict.2.addressDict e.evict.1 = none) ∧
      ∀ n, lruEvictor.results e (List.replicate (e.keys.length + n) .evict) =
        (e.keys.reverse.map fun k => .ok (some k)) ++ List.replicate n (.ok (some [])) := by
  obtain ⟨hl, hv⟩ := shows_of_reaches h
  have hord := RecencyList.ordered_of_reaches hl
  have hold := hord.evict_oldest []
  rw [show (RecencyList.evict [] e.keys).1 = e.evict.1 from (keys_evict e).1.symm] at hold
  exact ⟨hv.nodup_keys, hord, ⟨hv.nodup_addr, hv.indexed⟩, fun k => hv.addressDict_eq_none, hold,
    evict_forgets hv, results_drain hv⟩

/-- The key 1 has been evicted and touched again, and the key 2 has been touched twice. -/
theorem history_again : ∃ H e, lruEvictor.exec new
    [.touch [1], .touch [2], .evict, .touch [3], .touch [1], .touch [2]] = some (H, e) ∧
    RecencyList.Ordered H e.keys ∧ lruEvictor.results e (List.replicate 4 .evict) =
      [.ok (some [3]), .ok (some [1]), .ok (some [2]), .ok (some [])] :=
  Machine.exists_exec ⟨_, _, rfl, by decide⟩ (Machine.guarded_true _ _)
    fun _ e h (hkeys : e.keys = [[2], [1], [3]]) =>
      have ⟨_, hord, _, _, _, _, hdrain⟩ := history h
      ⟨hord, by have := hdrain 1; rwa [hkeys] at this⟩

end LRUEvictor

end CrankItUp
