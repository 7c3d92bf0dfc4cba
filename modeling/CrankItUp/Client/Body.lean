import CrankItUp.Client.Basic
import CrankItUp.Server.Safety

/-!
# What the client reads from the responses of the server

The server writes keys and values between quotes as they are, and the client reads from quote to
quote, at most 255 bytes at a time.  It does not write the size of the value that it returns.

* `Client.Plain b` : the client reads these bytes as they have been written.
* `Client.Readable key valstr` : of the pieces in which the client reads the body, from the key on,
  the fifth is the value, and the four before it are not empty.
* `Client.get_iff` : `get` returns the value and its size exactly if the pair is readable and the
  size is in the variable already.  It returns a null pointer exactly if the key is not there.
-/

namespace CrankItUp

namespace Client

/-- The bytes fit into the buffer, and there is no quote among them. -/
def Plain (b : Bytes) : Prop := b.length ≤ bufferSize - 1 ∧ quote ∉ b

instance (b : Bytes) : Decidable (Plain b) := inferInstanceAs (Decidable (_ ∧ _))

/-- The pieces in which the client reads a list of bytes. -/
def pieces (b : Bytes) : List Bytes := fields (bufferSize - 1) quote b

/-- The pieces in which the client reads the body, from the key to the value. -/
def pairPieces (key valstr : Bytes) : List Bytes :=
  pieces key ++ [str ",\n    ", str "value", str ": "] ++ pieces valstr

/-- The client comes to read the value as a whole. -/
def Readable (key valstr : Bytes) : Prop :=
  [] ∉ (pairPieces key valstr).take 4 ∧ ofBuf ((pairPieces key valstr).getD 4 []) = valstr

instance (key valstr : Bytes) : Decidable (Readable key valstr) :=
  inferInstanceAs (Decidable (_ ∧ _))

variable {key valstr b : Bytes} {v : CStr} {n : UInt32}

theorem pieces_of_plain (h : Plain b) : pieces b = [b] := fields_of_notMem h.1 h.2

theorem head_pieces_eq_self_iff : (pieces b).headD [] = b ↔ Plain b := head_fields_eq_self_iff

theorem pieces_append (b b' : Bytes) : pieces (b ++ quote :: b') = pieces b ++ pieces b' :=
  fields_append

theorem ofBuf_eq (h : 0 ∉ b) : ofBuf b = b := by
  rw [ofBuf, List.takeWhile_eq_self_iff]
  intro c hc
  exact decide_eq_true fun h0 => h (h0 ▸ hc)

/-! ### The pieces of a body -/

theorem pairBody_eq (key : KeyType) (v : CStr) : pairBody key v =
    str "\x7b\n    " ++ quote :: (str "key" ++ quote :: (str ": " ++ quote :: (key ++ quote ::
      (str ",\n    " ++ quote :: (str "value" ++ quote :: (str ": " ++ quote :: (v.shown ++ quote ::
        str "\n\x7d\n"))))))) := by
  simp only [pairBody, List.append_assoc]
  rfl

theorem pieces_pairBody (key : KeyType) (v : CStr) : pieces (pairBody key v) =
    [str "\x7b\n    ", str "key", str ": "] ++ pairPieces key v.shown ++ [str "\n\x7d\n"] := by
  have h (b : Bytes) (hb : Plain b) := pieces_of_plain hb
  rw [pairBody_eq]
  simp only [pieces_append, pairPieces, h (str "\x7b\n    ") (by decide), h (str "key") (by decide),
    h (str ": ") (by decide), h (str ",\n    ") (by decide), h (str "value") (by decide),
    h (str "\n\x7d\n") (by decide)]
  simp

theorem five_le_length_pairPieces (key valstr : Bytes) : 5 ≤ (pairPieces key valstr).length := by
  obtain ⟨t, ts, ht⟩ := exists_fields (bufferSize - 1) quote key
  obtain ⟨u, us, hu⟩ := exists_fields (bufferSize - 1) quote valstr
  simp only [pairPieces, pieces, ht, hu, List.length_append, List.length_cons, List.length_nil]
  omega

/-- Behind three pieces that are not empty, the eighth is the fifth of the others. -/
theorem eighth_eq {ts : List Bytes} {a b c : Bytes} (hts : 5 ≤ ts.length) (ha : a ≠ [])
    (hb : b ≠ []) (hc : c ≠ []) (d : Bytes) :
    (if [] ∈ ([a, b, c] ++ ts ++ [d]).take 7 then []
      else ([a, b, c] ++ ts ++ [d]).getD 7 []) =
    if [] ∈ ts.take 4 then [] else ts.getD 4 [] := by
  have htake : ([a, b, c] ++ ts ++ [d]).take 7 = [a, b, c] ++ ts.take 4 := by
    simp [List.take_append_of_le_length (show 4 ≤ ts.length by omega)]
  have hget : ([a, b, c] ++ ts ++ [d]).getD 7 [] = ts.getD 4 [] := by
    simp [List.getElem?_append_left (show 4 < ts.length by omega)]
  rw [htake, hget]
  simp [ha.symm, hb.symm, hc.symm]

theorem nthToken_pairBody (key : KeyType) (v : CStr) :
    IStream.nthToken (.ofList (pairBody key v)) (bufferSize - 1) quote 7 =
      if [] ∈ (pairPieces key v.shown).take 4 then []
      else (pairPieces key v.shown).getD 4 [] := by
  have hlen := five_le_length_pairPieces key v.shown
  have hpieces := pieces_pairBody key v
  rw [pieces] at hpieces
  rw [IStream.nthToken_eq, hpieces]
  · exact eighth_eq hlen (by decide) (by decide) (by decide) _
  · rw [hpieces]
    simp only [List.length_append, List.length_cons, List.length_nil]
    omega

theorem get_pairBody (key : KeyType) (v : CStr) (n : UInt32) : get (pairBody key v) n =
    some (some (CStr.ofBytes (ofBuf (if [] ∈ (pairPieces key v.shown).take 4 then []
      else (pairPieces key v.shown).getD 4 []))), n) := by
  rw [← nthToken_pairBody]
  obtain ⟨post, hpost⟩ : ∃ post, pairBody key v = brace :: post := by
    rw [pairBody_eq]
    exact ⟨_, rfl⟩
  rw [hpost]
  have hskip : skip (.ofList ([] ++ brace :: post)) = some (.ofList (brace :: post)) :=
    skip_ofList List.not_mem_nil
  rw [List.nil_append] at hskip
  have hbrace : ¬ (brace :: post).take 1 = str "K" := by
    simp [brace, str]
  rw [get, if_neg hbrace, hskip]
  rfl

/-! ### Which pairs are read -/

theorem ofBytes_inj {b b' : Bytes} : CStr.ofBytes b = CStr.ofBytes b' ↔ b = b' := by
  simp [CStr.ofBytes]

theorem get_pairBody_iff (key : KeyType) (hv : v.shown ≠ []) (n m : UInt32) :
    get (pairBody key v) n = some (some (CStr.ofBytes v.shown), m) ↔
      Readable key v.shown ∧ n = m := by
  rw [get_pairBody, Option.some_inj, Prod.mk.injEq, Option.some_inj, ofBytes_inj, Readable]
  by_cases hnil : [] ∈ (pairPieces key v.shown).take 4
  · -- the stream has failed, and an empty string is returned
    simp [hnil, ofBuf, hv.symm]
  · simp [hnil]

theorem readable_iff_of_plain (hkey : key ≠ []) (hplain : Plain key) (hnul : 0 ∉ valstr) :
    Readable key valstr ↔ Plain valstr := by
  obtain ⟨u, us, hu⟩ : ∃ u us, pieces valstr = u :: us := exists_fields _ _ valstr
  have hpieces : pairPieces key valstr =
      key :: str ",\n    " :: str "value" :: str ": " :: u :: us := by
    simp [pairPieces, pieces_of_plain hplain, hu]
  have hsub : u.Sublist valstr := by
    have hhead : (pieces valstr).headD [] = _ := head_fields
    rw [hu] at hhead
    rw [show u = _ from hhead]
    exact (List.takeWhile_sublist _).trans (List.take_sublist _ _)
  have hbuf : ofBuf u = u := ofBuf_eq fun hmem => hnul (hsub.subset hmem)
  have hself : u = valstr ↔ Plain valstr := by
    rw [← head_pieces_eq_self_iff, hu]
    rfl
  rw [Readable, hpieces, ← hself]
  show [] ∉ [key, str ",\n    ", str "value", str ": "] ∧ ofBuf u = valstr ↔ u = valstr
  rw [hbuf]
  simp [hkey.symm, str]

/-- **What `get` returns.**  For the answer of the server to a `get`, the client returns a null
pointer if the key is not there, and otherwise some string; this is the value, with its size,
exactly if the pair is readable and the variable for the size has the right value already. -/
theorem get_iff {s s' : Impl LRU} {res : Response}
    (h : handleRequest s (getRequest key) = .ok (some res, s')) (n : UInt32) :
    (s.lookup key = none → get res.body n = some (none, n)) ∧
      ∀ t v, s.lookup key = some t → t.val = some v → v.shown ≠ [] →
        (∃ w, get res.body n = some (some w, n)) ∧
        (get res.body n = some (some (CStr.ofBytes v.shown), UInt32.ofNat (v.strlen + 1)) ↔
          Readable key v.shown ∧ n = UInt32.ofNat (v.strlen + 1)) ∧
        (Plain key → (Readable key v.shown ↔ Plain v.shown)) := by
  obtain ⟨hlen, hcases⟩ := handle_get_cases rfl h
  have hkey : key ≠ [] := Request.key_ne_nil hlen
  have hkeyeq : (getRequest key).key = key := rfl
  rw [hkeyeq] at hcases
  constructor
  · intro hl
    rcases hcases with ⟨-, hres⟩ | ⟨t, -, hl', -⟩
    · cases hres
      rfl
    · rw [hl'] at hl
      cases hl
  · intro t v hl hval hv
    rcases hcases with ⟨hl', -⟩ | ⟨t', v', hl', hval', hres⟩
    · rw [hl'] at hl
      cases hl
    · cases hl'.symm.trans hl
      cases hval'.symm.trans hval
      rcases hres with ⟨-, -, hres⟩ | ⟨hzero, -⟩
      · cases hres
        exact ⟨⟨_, get_pairBody key v n⟩, get_pairBody_iff key hv n _,
          fun hplain => readable_iff_of_plain hkey hplain v.notMem_shown⟩
      · rw [← v.length_shown] at hzero
        exact absurd (List.length_eq_zero_iff.1 hzero) hv

/-- A server that has the value `v2` under the key `b`. -/
def holdsV2 : Impl LRU :=
  { serverCache 100 (.finite 3 2) firstByte with
    dict := [[⟨str "b", 3, text "v2"⟩], []]
    numElements := 1
    spaceUsed := 3 }

/-- The size of the value is in the variable already. -/
theorem get_known_size : ∃ res s', handleRequest holdsV2 (getRequest (str "b")) =
    .ok (some res, s') ∧ get res.body 3 = some (text "v2", 3) :=
  have h : handleRequest holdsV2 (getRequest (str "b")) =
      .ok (some ((getRequest (str "b")).showPair .ok (str "b") (CStr.ofBytes (str "v2"))),
        holdsV2.touchKey (str "b")) := rfl
  have hl : holdsV2.lookup (str "b") = some ⟨str "b", 3, text "v2"⟩ := rfl
  have hv : (CStr.ofBytes (str "v2")).shown ≠ [] := by decide
  ⟨_, _, h, ((get_iff h 3).2 _ _ hl rfl hv).2.1.2 (by decide)⟩

/-- The size is not written, and a value is cut at a quote. -/
theorem get_wrong : ∃ res res', server.results (serverCache 100 (.finite 3 2) firstByte)
    [setRequest (str "b") (CStr.ofBytes (str "v2")), getRequest (str "b"),
      setRequest (str "c") (CStr.ofBytes (str "v\"2")), getRequest (str "c")] =
    [.ok (some ((setRequest (str "b") (CStr.ofBytes (str "v2"))).showPair .created (str "b")
        (CStr.ofBytes (str "v2")))), .ok (some res),
      .ok (some ((setRequest (str "c") (CStr.ofBytes (str "v\"2"))).showPair .created (str "c")
        (CStr.ofBytes (str "v\"2")))), .ok (some res')] ∧
    get res.body 0 = some (text "v2", 0) ∧ get res'.body 4 = some (text "v", 4) :=
  ⟨_, _, rfl, rfl, rfl⟩

end Client

end CrankItUp
