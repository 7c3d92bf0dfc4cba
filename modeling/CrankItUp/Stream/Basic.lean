import Mathlib.Data.List.TakeWhile

/-!
# Input streams over a string

The state of an input stream of the standard library that reads from a string, with its unformatted
input functions.  A stream that has met the end of the string, or has failed, reads nothing.

## Main definitions

* `IStream α` : what is left to read, and the bits `eof` and `fail`.
* `IStream.peek`, `IStream.ignore`, `IStream.get` : the input functions.
* `IStream.token` : read up to a delimiter, and skip it.
* `fields n delim l` : the pieces of a list that are read one after another in this way.  A piece
  that reaches the size of the buffer ends there, and the element that follows is lost.
* `IStream.nthToken_eq` : reading token after token gives the fields, up to the first empty one,
  at which the stream fails.
-/

namespace CrankItUp

/-- An input stream. -/
structure IStream (α : Type*) where
  rest : List α
  eof : Bool
  fail : Bool
  deriving DecidableEq

namespace IStream

variable {α : Type*}

/-- A stream that reads from a string. -/
def ofList (l : List α) : IStream α := ⟨l, false, false⟩

/-- Neither `eofbit` nor `failbit` is set. -/
def good (s : IStream α) : Bool := !s.eof && !s.fail

/-- `s.peek()`; `none` at the end of the string. -/
def peek (s : IStream α) : Option α × IStream α :=
  if s.good then
    match s.rest with
    | [] => (none, { s with eof := true })
    | c :: _ => (some c, s)
  else (none, { s with fail := true })

/-- `s.ignore()`. -/
def ignore (s : IStream α) : IStream α :=
  if s.good then
    match s.rest with
    | [] => { s with eof := true }
    | _ :: rest => { s with rest := rest }
  else { s with fail := true }

theorem peek_rest (s : IStream α) : s.peek.2.rest = s.rest := by
  unfold peek
  split
  · split <;> rfl
  · rfl

theorem mem_of_peek {s : IStream α} {c : α} (h : s.peek.1 = some c) : c ∈ s.rest := by
  unfold peek at h
  split at h
  · cases hs : s.rest with
    | nil => simp [hs] at h
    | cons c' rest => simp_all
  · cases h

theorem ignore_rest_subset (s : IStream α) : ∀ c ∈ s.ignore.rest, c ∈ s.rest := by
  unfold ignore
  split
  · cases hs : s.rest with
    | nil => simp
    | cons c' rest => exact fun c => List.mem_cons_of_mem c'
  · exact fun _ => id

variable [DecidableEq α]

/-- `s.get(buf, n + 1, delim)` : read at most `n` elements, up to the delimiter.  The stream fails
if it reads none. -/
def get (s : IStream α) (n : ℕ) (delim : α) : List α × IStream α :=
  if s.good then
    let buf := (s.rest.take n).takeWhile (· ≠ delim)
    let rest := s.rest.drop buf.length
    (buf, ⟨rest, rest.isEmpty, buf.isEmpty⟩)
  else ([], { s with fail := true })

/-- Read up to the delimiter, and skip it. -/
def token (s : IStream α) (n : ℕ) (delim : α) : List α × IStream α :=
  ((s.get n delim).1, (s.get n delim).2.ignore)

/-- The token that follows after `j` others. -/
def nthToken (s : IStream α) (n : ℕ) (delim : α) : ℕ → List α
  | 0 => (s.token n delim).1
  | j + 1 => (s.token n delim).2.nthToken n delim j

end IStream

section Fields

variable {α : Type*} [DecidableEq α]

/-- The pieces of a list, of at most `n` elements each, with one element lost behind each of
them; `m` is the room that is left in the piece `acc`. -/
def fieldsFrom (n : ℕ) (delim : α) : ℕ → List α → List α → List (List α)
  | _, acc, [] => [acc]
  | 0, acc, _ :: l => acc :: fieldsFrom n delim n [] l
  | m + 1, acc, c :: l =>
    if c = delim then acc :: fieldsFrom n delim n [] l
    else fieldsFrom n delim m (acc ++ [c]) l

/-- The pieces of a list. -/
def fields (n : ℕ) (delim : α) (l : List α) : List (List α) := fieldsFrom n delim n [] l

variable {n m : ℕ} {delim : α} {l l' acc : List α}

theorem fieldsFrom_append :
    fieldsFrom n delim m acc (l ++ delim :: l') =
      fieldsFrom n delim m acc l ++ fields n delim l' := by
  induction l generalizing m acc with
  | nil => cases m <;> simp [fieldsFrom, fields]
  | cons c l ih =>
    cases m with
    | zero => simp [fieldsFrom, ih]
    | succ m =>
      by_cases hc : c = delim
      · simp [fieldsFrom, hc, ih]
      · simp [fieldsFrom, hc, ih]

theorem fields_append :
    fields n delim (l ++ delim :: l') = fields n delim l ++ fields n delim l' :=
  fieldsFrom_append

/-- The first piece goes up to the delimiter, and the others are read behind it. -/
theorem fieldsFrom_eq : fieldsFrom n delim m acc l =
    (acc ++ (l.take m).takeWhile (· ≠ delim)) ::
      match l.drop ((l.take m).takeWhile (· ≠ delim)).length with
      | [] => []
      | _ :: l' => fields n delim l' := by
  induction l generalizing m acc with
  | nil => simp [fieldsFrom]
  | cons c l ih =>
    cases m with
    | zero => simp [fieldsFrom, fields]
    | succ m =>
      by_cases hc : c = delim
      · simp [fieldsFrom, fields, hc]
      · simp [fieldsFrom, hc, ih]

theorem exists_fields (n : ℕ) (delim : α) (l : List α) :
    ∃ t ts, fields n delim l = t :: ts := by
  rw [fields, fieldsFrom_eq]
  exact ⟨_, _, rfl⟩

theorem head_fields : (fields n delim l).headD [] = (l.take n).takeWhile (· ≠ delim) := by
  rw [fields, fieldsFrom_eq]
  rfl

theorem fields_of_notMem (hlen : l.length ≤ n) (hno : delim ∉ l) : fields n delim l = [l] := by
  have hall : ∀ c ∈ l, decide (c ≠ delim) = true := by
    intro c hc
    exact decide_eq_true fun h => hno (h ▸ hc)
  rw [fields, fieldsFrom_eq, List.take_of_length_le hlen, List.nil_append,
    List.takeWhile_eq_self_iff.2 hall, List.drop_length]

/-- A list is read in one piece exactly if it is short and does not have the delimiter. -/
theorem head_fields_eq_self_iff :
    (fields n delim l).headD [] = l ↔ l.length ≤ n ∧ delim ∉ l := by
  constructor
  · rw [head_fields]
    intro h
    have hlen := (List.takeWhile_sublist (fun c => decide (c ≠ delim)) (l := l.take n)).length_le
    rw [h, List.length_take] at hlen
    refine ⟨by omega, fun hmem => ?_⟩
    rw [← h] at hmem
    simpa using List.mem_takeWhile_imp hmem
  · rintro ⟨hlen, hno⟩
    rw [fields_of_notMem hlen hno]
    rfl

end Fields

namespace IStream

variable {α : Type*} [DecidableEq α] {n : ℕ} {delim : α} {s : IStream α}

theorem nthToken_of_fail (h : s.fail = true) (j : ℕ) : s.nthToken n delim j = [] := by
  have hgood : s.good = false := by simp [good, h]
  have hs : { s with fail := true } = s := by rw [← h]
  have htoken : s.token n delim = ([], s) := by
    simp only [token, get, ignore, hgood, Bool.false_eq_true, ↓reduceIte, hs]
  induction j with
  | zero => rw [nthToken, htoken]
  | succ j ih => rw [nthToken, htoken, ih]

theorem token_ofList {l t : List α} {ts : List (List α)} (h : fields n delim l = t :: ts)
    (hts : ts ≠ []) : ∃ l', fields n delim l' = ts ∧ (ofList l).token n delim =
      (t, if t = [] then ⟨l, false, true⟩ else ofList l') := by
  obtain ⟨buf, hbuf⟩ : ∃ buf, (l.take n).takeWhile (· ≠ delim) = buf := ⟨_, rfl⟩
  have hget : (ofList l).get n delim =
      (buf, ⟨l.drop buf.length, (l.drop buf.length).isEmpty, buf.isEmpty⟩) := by
    rw [← hbuf]
    rfl
  rw [fields, fieldsFrom_eq, List.nil_append, hbuf] at h
  injection h with ht h
  subst ht
  cases hdrop : l.drop buf.length with
  | nil =>
    rw [hdrop] at h
    exact absurd h.symm hts
  | cons c l' =>
    rw [hdrop] at h hget
    refine ⟨l', h, ?_⟩
    rw [token, hget]
    by_cases hbuf0 : buf = []
    · subst hbuf0
      obtain rfl : l = c :: l' := hdrop
      simp [ignore, good]
    · simp [ignore, good, ofList, hbuf0]

/-- **Reading token after token** gives the pieces of the string, and nothing behind an empty
piece, as long as the end of the string is not met. -/
theorem nthToken_eq {l : List α} {j : ℕ} (hj : j + 1 < (fields n delim l).length) :
    (ofList l).nthToken n delim j =
      if [] ∈ (fields n delim l).take j then [] else (fields n delim l).getD j [] := by
  induction j generalizing l with
  | zero =>
    rw [nthToken]
    obtain ⟨t, ts, hf⟩ := exists_fields n delim l
    have hts : ts ≠ [] := by
      rintro rfl
      simp [hf] at hj
    obtain ⟨l', -, htoken⟩ := token_ofList hf hts
    simp [htoken, hf]
  | succ j ih =>
    rw [nthToken]
    obtain ⟨t, ts, hf⟩ := exists_fields n delim l
    have hlen : j + 1 < ts.length := by simpa [hf] using hj
    obtain ⟨l', rfl, htoken⟩ := token_ofList hf (List.ne_nil_of_length_pos (by omega))
    rw [htoken, hf]
    by_cases ht : t = []
    · simp [ht, nthToken_of_fail]
    · simp [ht, ih hlen, Ne.symm ht]

end IStream

end CrankItUp
