import CrankItUp.Cache.Guard

/-!
# The number of buckets

A new cache has two buckets, and growth doubles their number, so that it is a power of two.  The
31st doubling would overflow: it leaves no buckets.

* `Impl.Doubled s` : the number of buckets is a power of two below `2 ^ 32`.
* `Impl.Doubled.call` : a call that returns has not overflowed the number of buckets, provided
  that there is an evictor; without one, `set` may give up before it notices.
-/

namespace CrankItUp

namespace Impl

variable {ε : Type}

/-- The number of buckets is a power of two, and below `2 ^ 32`. -/
def Doubled (s : Impl ε) : Prop := ∃ k < 32, s.dict.length = 2 ^ k

variable {s s' g : Impl ε} {key : KeyType} {val : ValType} {size : UInt32}

theorem doubled_new (maxmem : UInt32) (f : FloatVal) (e : Option ε)
    (h : Option (KeyType → UInt64)) : (new maxmem f e h).Doubled :=
  ⟨1, by omega, List.length_replicate⟩

theorem Doubled.pos (h : s.Doubled) : 0 < s.dict.length := by
  obtain ⟨k, -, hk⟩ := h
  rw [hk]
  exact Nat.two_pow_pos k

theorem Doubled.congr (h : s.Doubled) (hlen : s'.dict.length = s.dict.length) : s'.Doubled := by
  obtain ⟨k, hlt, hk⟩ := h
  exact ⟨k, hlt, hlen.trans hk⟩

theorem Doubled.grow (h : s.Doubled) (hg : s.grow = .ok g) (hpos : 0 < g.dict.length) :
    s.NoOverflow ∧ g.Doubled := by
  obtain ⟨-, ⟨hno, rfl⟩ | ⟨hgr, hre⟩⟩ := grow_cases hg
  · exact ⟨fun hgr => absurd hgr hno, h⟩
  · obtain ⟨k, hlt, hk⟩ := h
    obtain ⟨d, rfl, hlen, -⟩ := resize_cases hre
    have hdouble : 2 * s.dict.length = 2 ^ (k + 1) := by rw [hk, pow_succ, Nat.mul_comm]
    have hsize : d.length = 2 ^ (k + 1) % 2 ^ 32 := by
      rw [hlen, newSize, UInt32.toNat_ofNat', hdouble]
    have hk' : k + 1 < 32 := by
      by_contra hk'
      -- the doubled number is `2 ^ 32`, which wraps to 0
      obtain rfl : k = 31 := by omega
      dsimp only at hpos
      omega
    have hpow : 2 ^ (k + 1) < 2 ^ 32 := Nat.pow_lt_pow_right (by omega) hk'
    refine ⟨fun _ => hdouble ▸ hpow, k + 1, hk', ?_⟩
    rw [Nat.mod_eq_of_lt hpow] at hsize
    exact hsize

variable [Evictor ε]

/-- An activation that returns has found buckets after its growth check. -/
theorem exists_grow_of_setBody {e : Exit} (h : s.setBody key val size = .ok (e, s'))
    (he : s.evictor.isSome) : ∃ g, s.grow = .ok g ∧ 0 < g.dict.length := by
  rw [setBody, bind_eq_ok] at h
  obtain ⟨g, hg, h⟩ := h
  refine ⟨g, hg, ?_⟩
  split at h
  · obtain ⟨p, hget, -⟩ := bind_eq_ok.1 h
    exact (get_cases hget).1
  · obtain ⟨e', he'⟩ := Option.isSome_iff_exists.1 he
    rw [grow_evictor hg, he'] at h
    obtain ⟨p, hdel, -⟩ := bind_eq_ok.1 h
    exact (del_cases hdel).1

theorem Doubled.setBody {e : Exit} (h : s.Doubled) (he : s.evictor.isSome)
    (hb : s.setBody key val size = .ok (e, s')) : s.NoOverflow ∧ s'.Doubled := by
  obtain ⟨g, hg, hpos⟩ := exists_grow_of_setBody hb he
  obtain ⟨hover, hd⟩ := h.grow hg hpos
  refine ⟨hover, hd.congr ?_⟩
  -- after the growth check the number of buckets stays the same
  refine (setBody_cases hb).induction (P := fun a => a.dict.length = g.dict.length)
    (fun _ _ _ ha => ha) ?_ ?_ ?_
  · rintro g' hg'
    cases hg.symm.trans hg'
    rfl
  · exact fun _ _ hlen _ _ _ => by simpa [push] using hlen
  · exact fun _ _ _ _ _ hlen _ hdel => hdel.frame.2.2.2.trans hlen

theorem Activation.evictor_isSome {e : Exit} (h : s.Activation key val size e s') :
    s'.evictor.isSome = s.evictor.isSome := by
  refine h.induction (P := fun a => a.evictor.isSome = s.evictor.isSome) ?_ ?_ ?_ ?_
  · exact fun _ _ hx ha => hx.trans ha
  · exact fun g hg => by rw [grow_evictor hg]
  · exact fun _ _ hev _ _ _ => hev
  · exact fun _ _ _ _ _ hev _ hdel => by rw [hdel.frame.2.1, hev]

/-- **A call that returns has not overflowed the number of buckets.** -/
theorem Doubled.call {o : Op} {r : Result} (h : s.Doubled) (he : s.evictor.isSome)
    (hc : s.Call o r s') : s.EachActivation (fun a _ _ => a.NoOverflow) o ∧ s'.Doubled := by
  cases hc with
  | @set key val size es _ hs =>
    have hends := set_ends hs
    have hinv : ∀ a, (setLoop key val size).Entered s a → a.Doubled ∧ a.evictor.isSome := by
      intro a ha
      refine ha.invariant (P := fun a => a.Doubled ∧ a.evictor.isSome) ⟨h, he⟩ ?_
      rintro a e a' - ⟨hd, hev⟩ hb -
      exact ⟨(hd.setBody hev hb).2, (setBody_cases hb).evictor_isSome.trans hev⟩
    refine ⟨fun a ha => ?_, ?_⟩
    · obtain ⟨e, a', hb⟩ := hends.body_isOk ha
      exact ((hinv a ha).1.setBody (hinv a ha).2 hb).1
    · refine hends.invariant (P := Doubled) h fun a e a' ha _ hd hb => ?_
      exact (hd.setBody (hinv a ha).2 hb).2
  | get hs =>
    refine ⟨trivial, ?_⟩
    obtain ⟨-, ⟨-, -, -, rfl⟩ | ⟨t, w, -, -, -, -, rfl⟩⟩ := get_cases hs
    exacts [h, h.congr rfl]
  | del hs =>
    refine ⟨trivial, ?_⟩
    obtain ⟨-, ⟨-, rfl, -⟩ | ⟨-, t, hd⟩⟩ := del_cases hs
    exacts [h, h.congr hd.frame.2.2.2]
  | spaceUsed => exact ⟨trivial, h⟩
  | reset => exact ⟨trivial, h.congr (List.length_map _)⟩

end Impl

end CrankItUp
