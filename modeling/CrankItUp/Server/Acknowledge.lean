import CrankItUp.Server.Safety
import CrankItUp.Store.Admission

/-!
# When the answer to a `PUT` is true

The server answers every `PUT` with 201 and the pair, although `set` may give up without storing
it.

* `Impl.Keeps s key valstr` : `set` can make room for the value; or the key already has it, and is
  not evicted in vain.
* `acknowledged_iff` : exactly then a `GET` that follows answers what the `PUT` has answered.
-/

namespace CrankItUp

/-- The store has the value under the key. -/
def Store.Holds {ε : Type} (st : Store ε) (key : KeyType) (valstr : Bytes) : Prop :=
  ∃ x ∈ st.find key, ∃ w ∈ x.val, w.shown = valstr

instance {ε : Type} (st : Store ε) (key : KeyType) (valstr : Bytes) :
    Decidable (st.Holds key valstr) := by
  unfold Store.Holds
  infer_instance

/-- After a `set` of the value, the key has it. -/
def Impl.Keeps (s : Impl LRU) (key : KeyType) (valstr : Bytes) : Prop :=
  s.view.Admits (storedSize valstr) ∨ s.view.Holds key valstr ∧ key ∉ s.view.evictable

instance (s : Impl LRU) (key : KeyType) (valstr : Bytes) : Decidable (s.Keeps key valstr) :=
  inferInstanceAs (Decidable (_ ∨ _ ∧ _))

variable {s s' : Impl LRU} {req : Request} {key : KeyType} {valstr : Bytes} {v : CStr}

/-! ### What is seen of a response -/

theorem showPair_inj {status : Status} {v w : CStr} :
    req.showPair status key v = req.showPair status key w ↔ v.shown = w.shown := by
  constructor
  · intro h
    have hbody := congrArg Response.body h
    simpa [Request.showPair, Response.write, Response.set, Response.result, Response.new,
      pairBody] using hbody
  · intro h
    rw [Request.showPair, Request.showPair, pairBody, pairBody, h]

theorem handle_put (hm : req.method = .put) (hn : req.Names key valstr) {es : List Exit}
    (hset : s.set key (some (strcpy valstr)) (storedSize valstr) = .ok (es, s')) :
    handleRequest s req = .ok (some (req.showPair .created key (strcpy valstr)), s') := by
  have hst : s.perform (some (putOp key valstr)) = .ok (some (putOp key valstr, .set es), s') := by
    simp only [Impl.perform, putOp, Impl.step, hset]
    rfl
  rw [handleRequest_eq, Request.op_eq_ok.2 (.put hm hn)]
  simp only [bind, Except.bind, hst]
  rfl

theorem handle_get_iff (hm : req.method = .get) (hlen : 1 < req.target.length)
    (hpos : 0 < v.strlen) :
    (∃ s', handleRequest s req = .ok (some (req.showPair .ok req.key v), s')) ↔
      (∃ t ∈ s.lookup req.key, ∃ w ∈ t.val, w.shown = v.shown) ∧ ¬ 2 ^ 32 ∣ v.strlen + 1 := by
  constructor
  · rintro ⟨s', h⟩
    obtain ⟨-, ⟨-, hres⟩ | ⟨t, w, hl, hw, ⟨-, hsize, hres⟩ | ⟨-, hres⟩⟩⟩ := handle_get_cases hm h
    · -- the answer is that the key is not there
      cases congrArg Response.status (Option.some.inj hres)
    · have hshown := showPair_inj.1 (Option.some.inj hres)
      refine ⟨⟨t, hl, w, hw, hshown.symm⟩, ?_⟩
      rwa [← v.length_shown, hshown, w.length_shown]
    · -- an empty value is answered without a body
      cases congrArg Response.fields (Option.some.inj hres)
  · rintro ⟨⟨t, hl, w, hw, hshown⟩, hsize⟩
    have hlenw : w.strlen = v.strlen := by rw [← w.length_shown, hshown, v.length_shown]
    rw [← hlenw] at hpos hsize
    rw [← showPair_inj.2 hshown]
    exact ⟨_, handle_get_present hm hlen hl hw hpos hsize⟩

/-! ### What is found after a `PUT` -/

theorem Request.Asks.stores_value {o : Op} (h : req.Asks (some o)) :
    o.Stores fun t => t.val ≠ none := by
  cases h with
  | put => exact Option.some_ne_none _
  | get | delete | head | reset => trivial

theorem Impl.EachEntry.valued (h : s.EachEntry fun t => t.val ≠ none) (hkey : key ≠ []) :
    s.view.Valued key := by
  intro x hx
  obtain ⟨t, ht, rfl, rfl⟩ := Impl.exists_triple_of_find hx
  exact h t ht hkey

theorem exists_lookup_iff (h : s.Tidy) (hkey : key ≠ []) :
    (∃ t ∈ s.lookup key, ∃ w ∈ t.val, w.shown = valstr) ↔ s.view.Holds key valstr := by
  have hclean : s.Clean key := fun hl => hkey (Impl.lookup_key hl).symm
  rw [Store.Holds, Impl.view_find (h.tidyAt key) hclean]
  constructor
  · rintro ⟨t, hl, w, hw, hshown⟩
    exact ⟨t.entry, by simp [Option.mem_def.1 hl], w, hw, hshown⟩
  · rintro ⟨x, hx, w, hw, hshown⟩
    obtain ⟨t, hl, rfl⟩ := Option.map_eq_some_iff.1 hx
    exact ⟨t, hl, w, hw, hshown⟩

theorem queue_nodup (s : Impl LRU) : s.view.queue.Nodup := by
  unfold Store.queue
  split
  · exact List.nodup_reverse.2 (LRU.nodup_keys _)
  · exact List.nodup_nil

/-- After a `set` the key has the value if the value has been stored, or if the key has had it and
has not been evicted. -/
theorem holds_set_iff (hs : s.Ready) (hn : s.view.Valued key) (hnul : 0 ∉ valstr)
    (hacc : s.Accurate (putOp key valstr)) (hkey : key ≠ []) :
    ∃ es s', s.set key (some (strcpy valstr)) (storedSize valstr) = .ok (es, s') ∧ s'.Tidy ∧
      (s'.view.Holds key valstr ↔ s.Keeps key valstr) := by
  obtain ⟨es, s', hset, htidy, hends, hes⟩ := hs.set hn hacc
  refine ⟨es, s', hset, htidy, ?_⟩
  by_cases had : s.view.Admits (storedSize valstr)
  · -- the triple that has been stored is found
    obtain ⟨a, g, -, -, hpos, -, hno, rfl⟩ := Impl.set_stored hset (hes.2 had)
    rw [← exists_lookup_iff htidy hkey]
    refine iff_of_true ⟨_, Impl.push_lookup_self hpos hno, _, rfl, ?_⟩ (.inl had)
    rw [strcpy_eq hnul, CStr.shown_ofBytes hnul]
  · have hfind := Store.find_of_ends (k := key) hends hs.covered (queue_nodup s) had
    simp only [Impl.Keeps, had, false_or, Store.Holds, hfind]
    by_cases hev : key ∈ s.view.evictable <;> simp [hev]

/-- **When the answer to a `PUT` is true.**  In every state that accurate requests lead to, a
`PUT` answers 201 and its pair, and a `GET` of the key that follows answers the same value exactly
if the value can be stored, or is there and stays there, and has a size other than 0. -/
theorem acknowledged_iff {maxmem : UInt32} {loadFactor : FloatVal} {hasher : KeyType → UInt64}
    {H : List (Request × Option Response)}
    (h : server.Reaches (Request.Calls Impl.Accurate) (serverCache maxmem loadFactor hasher) H s)
    (hm : req.method = .put) (hn : req.Names key valstr) (hnul : 0 ∉ req.target)
    (hacc : s.Accurate (putOp key valstr)) (version : ℕ) :
    ∃ s', handleRequest s req = .ok (some (req.showPair .created key (strcpy valstr)), s') ∧
      ((∃ s'', handleRequest s' ⟨version, .get, 0x2F :: key⟩ = .ok (some
          (Request.showPair ⟨version, .get, 0x2F :: key⟩ .ok key (strcpy valstr)), s'')) ↔
        s.Keeps key valstr ∧ ¬ 2 ^ 32 ∣ valstr.length + 1) := by
  have hval := hn.notMem hnul
  have hready : s.Ready := by
    obtain ⟨H', hH'⟩ := library_reaches h
    exact Impl.ready_of_reaches hH'
  have hentries : s.EachEntry fun t => t.val ≠ none :=
    (serving_of_reaches (fun _ _ _ ha => ha.stores_value) (h.mono fun _ _ _ => trivial)).entries
  obtain ⟨es, s', hset, htidy, hiff⟩ :=
    holds_set_iff hready (hentries.valued hn.key_ne) hval hacc hn.key_ne
  refine ⟨s', handle_put hm hn hset, ?_⟩
  have hpos : 0 < (strcpy valstr).strlen := hn.strlen_pos hnul
  have hlen : 1 < (0x2F :: key).length := by
    simpa using List.length_pos_iff.2 hn.key_ne
  have hm' : (⟨version, .get, 0x2F :: key⟩ : Request).method = .get := rfl
  have hget := handle_get_iff (s := s') hm' hlen hpos
  rw [strlen_strcpy hval, strcpy_eq hval, CStr.shown_ofBytes hval] at hget
  rw [← hiff, ← exists_lookup_iff htidy hn.key_ne, strcpy_eq hval]
  exact hget

/-- The key `a` is evicted to make room for the key `b`. -/
theorem acknowledged_evicting : ∃ H s, server.exec (serverCache 4 (.finite 3 2) firstByte)
    [⟨11, .put, str "/a/x"⟩] = some (H, s) ∧
    ∃ s', handleRequest s ⟨11, .put, str "/b/xyz"⟩ = .ok (some
        (Request.showPair ⟨11, .put, str "/b/xyz"⟩ .created (str "b") (strcpy (str "xyz"))), s') ∧
      ∃ s'', handleRequest s' ⟨11, .get, str "/b"⟩ = .ok (some
        (Request.showPair ⟨11, .get, str "/b"⟩ .ok (str "b") (strcpy (str "xyz"))), s'') :=
  Machine.exists_exec ⟨_, _, rfl, by decide⟩ (by decide) fun _ s h
    (hD : s.Accurate (putOp (str "b") (str "xyz")) ∧ s.Keeps (str "b") (str "xyz")) =>
    have hn : Request.Names ⟨11, .put, str "/b/xyz"⟩ (str "b") (str "xyz") :=
      ⟨rfl, by decide, by decide, by decide⟩
    have ⟨s', hput, hiff⟩ := acknowledged_iff h rfl hn (by decide) hD.1 11
    ⟨s', hput, hiff.2 ⟨hD.2, by decide⟩⟩

/-- A value larger than `maxmem` is not stored, and the `PUT` answers 201. -/
theorem acknowledged_refused : ∃ s, server.exec (serverCache 2 (.finite 3 2) firstByte)
    [⟨11, .put, str "/a/xy"⟩, ⟨11, .get, str "/a"⟩] =
    some ([(⟨11, .get, str "/a"⟩, some (Request.notFound ⟨11, .get, str "/a"⟩)),
      (⟨11, .put, str "/a/xy"⟩, some (Request.showPair ⟨11, .put, str "/a/xy"⟩ .created (str "a")
        (strcpy (str "xy"))))], s) :=
  ⟨_, rfl⟩

end CrankItUp
