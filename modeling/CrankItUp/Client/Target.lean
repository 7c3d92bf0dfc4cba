import CrankItUp.Client.Basic
import CrankItUp.Server.Codec

/-!
# What the server reads from the requests of the client

The client does not escape the slashes of a key.  The server reads the key of a `PUT` up to the
first slash, and that of a `GET` or `DELETE` to the end.

* `Client.addresses_iff` : the three requests for a key name this key exactly if it has no slash.
-/

namespace CrankItUp

namespace Client

variable {key : KeyType} {val : CStr}

theorem names_setRequest_iff (hkey : key ≠ []) (hval : val.shown ≠ []) :
    (setRequest key val).Names key val.shown ↔ 0x2F ∉ key :=
  ⟨fun h => h.no_slash, fun h => ⟨rfl, h, hkey, hval⟩⟩

theorem op_getRequest (hkey : key ≠ []) : (getRequest key).op = .ok (some (.get key 0)) :=
  Request.op_eq_ok.2 (.get rfl (Nat.succ_lt_succ (List.length_pos_iff.2 hkey)))

theorem op_delRequest (hkey : key ≠ []) : (delRequest key).op = .ok (some (.del key)) :=
  Request.op_eq_ok.2 (.delete rfl (Nat.succ_lt_succ (List.length_pos_iff.2 hkey)))

/-- **The key of a request.**  The server reads the key and the value of a `set` as they are, and
with them the key that it reads from `get` and `del`, exactly if the key has no slash. -/
theorem addresses_iff (hkey : key ≠ []) (hval : val.shown ≠ []) :
    ((setRequest key val).pair = .ok (key, val.shown) ∧
      (setRequest key val).op = .ok (some (putOp key val.shown)) ∧
      (getRequest key).op = .ok (some (.get key 0)) ∧
      (delRequest key).op = .ok (some (.del key))) ↔ 0x2F ∉ key := by
  constructor
  · rintro ⟨hpair, -⟩
    exact (Request.pair_eq_ok.1 hpair).no_slash
  · intro hno
    have hn := (names_setRequest_iff hkey hval).2 hno
    exact ⟨Request.pair_eq_ok.2 hn, Request.op_eq_ok.2 (.put rfl hn), op_getRequest hkey,
      op_delRequest hkey⟩

/-- The key `a` with the value `b c`. -/
theorem addresses_plain :
    (setRequest (str "a") (CStr.ofBytes (str "b c"))).pair = .ok (str "a", str "b c") :=
  have hval : (CStr.ofBytes (str "b c")).shown ≠ [] := by decide
  have hkey : str "a" ≠ [] := by decide
  ((addresses_iff hkey hval).2 (by decide)).1

/-- A value stored under the key `a/b` is stored under the key `a`, and is not found. -/
theorem addresses_slash :
    (setRequest (str "a/b") (CStr.ofBytes (str "x"))).pair = .ok (str "a", str "b/x") ∧
    ∃ res, server.results (serverCache 100 (.finite 3 2) firstByte)
      [setRequest (str "a/b") (CStr.ofBytes (str "x")), getRequest (str "a/b")] =
      [.ok (some res), .ok (some (getRequest (str "a/b")).notFound)] :=
  ⟨rfl, _, rfl⟩

end Client

end CrankItUp
