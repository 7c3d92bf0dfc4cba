import Mathlib.Data.UInt
import Mathlib.Data.List.TakeWhile

/-!
# Reading decimal numbers

The extraction of an unsigned number of 32 bits from a stream of the standard library, and the
digits that it is written with.

* `decimal n` : the decimal digits of a number, as characters.
* `readUnsigned l` : what `stream >> n` stores in an unsigned `n`.
* `readUnsigned_decimal` : digits are read up to the first other character, whatever follows.
-/

namespace CrankItUp

/-- `isspace` in the classic locale. -/
def isSpace (c : UInt8) : Bool := c == 0x20 || (0x09 ≤ c && c ≤ 0x0D)

/-- `isdigit`. -/
def isDigit (c : UInt8) : Bool := 0x30 ≤ c && c ≤ 0x39

/-- The number that a list of digits denotes. -/
def digitsValue (l : List UInt8) : ℕ := l.foldl (fun n c => 10 * n + (c.toNat - 0x30)) 0

/-- The decimal digits of a number. -/
def decimal (n : ℕ) : List UInt8 := (Nat.toDigits 10 n).map fun c => UInt8.ofNat c.toNat

/-- `stream >> n`.  Spaces are skipped, and a sign is accepted.  Without digits the number is 0,
and a number that is too large becomes the largest one.  A stream of spaces only leaves the
variable as it was in the code, and gives 0 here. -/
def readUnsigned (l : List UInt8) : UInt32 :=
  let l := l.dropWhile isSpace
  let negative := l.head? == some 0x2D
  let l := if negative || l.head? == some 0x2B then l.tail else l
  let value := digitsValue (l.takeWhile isDigit)
  if value < 2 ^ 32 then
    if negative then -UInt32.ofNat value else UInt32.ofNat value
  else UInt32.ofNat (2 ^ 32 - 1)

theorem toNat_of_isDigit {c : Char} (h : c.isDigit) :
    (UInt8.ofNat c.toNat).toNat = c.toNat ∧ 0x30 ≤ c.toNat ∧ c.toNat ≤ 0x39 := by
  obtain ⟨h₁, h₂⟩ : 0x30 ≤ c.toNat ∧ c.toNat ≤ 0x39 := by
    simpa [Char.isDigit, UInt32.le_iff_toNat_le] using h
  refine ⟨?_, h₁, h₂⟩
  rw [UInt8.toNat_ofNat', Nat.mod_eq_of_lt (by omega)]

theorem digitsValue_map {l : List Char} (h : ∀ c ∈ l, c.isDigit) :
    digitsValue (l.map fun c => UInt8.ofNat c.toNat) = Nat.ofDigitChars 10 l 0 := by
  rw [digitsValue, Nat.ofDigitChars_eq_foldl, List.foldl_map]
  refine List.foldl_ext _ _ _ fun n c hc => ?_
  rw [(toNat_of_isDigit (h c hc)).1]
  rfl

theorem digitsValue_decimal (n : ℕ) : digitsValue (decimal n) = n := by
  rw [decimal, digitsValue_map fun c hc => Nat.isDigit_of_mem_toDigits (by decide) (by decide) hc,
    Nat.ofDigitChars_ten_toDigits]

theorem isDigit_of_mem_decimal {n : ℕ} {c : UInt8} (h : c ∈ decimal n) : isDigit c := by
  obtain ⟨d, hd, rfl⟩ := List.mem_map.1 h
  obtain ⟨heq, h₁, h₂⟩ :=
    toNat_of_isDigit (Nat.isDigit_of_mem_toDigits (b := 10) (by decide) (by decide) hd)
  simp [isDigit, UInt8.le_iff_toNat_le, heq, h₁, h₂]

theorem not_isSpace_of_isDigit {c : UInt8} (h : isDigit c) :
    isSpace c = false ∧ c ≠ 0x2D ∧ c ≠ 0x2B := by
  obtain ⟨h₁, h₂⟩ : 0x30 ≤ c.toNat ∧ c.toNat ≤ 0x39 := by
    simpa [isDigit, UInt8.le_iff_toNat_le] using h
  have hne : c ≠ 0x20 ∧ c ≠ 0x2D ∧ c ≠ 0x2B := by
    simp only [ne_eq, ← UInt8.toNat_inj, UInt8.reduceToNat]
    omega
  refine ⟨?_, hne.2⟩
  have hle : ¬ c ≤ 0x0D := by
    simp only [UInt8.le_iff_toNat_le, UInt8.reduceToNat]
    omega
  simp [isSpace, hne.1, hle]

/-- **Digits are read** up to the first other character. -/
theorem readUnsigned_decimal (n : UInt32) {c : UInt8} (hc : isDigit c = false) (l : List UInt8) :
    readUnsigned (decimal n.toNat ++ c :: l) = n := by
  obtain ⟨d, ds, hds⟩ : ∃ d ds, decimal n.toNat = d :: ds :=
    List.exists_cons_of_ne_nil (by simp [decimal])
  obtain ⟨hspace, hminus, hplus⟩ :=
    not_isSpace_of_isDigit (isDigit_of_mem_decimal (hds ▸ List.mem_cons_self))
  have htake : (decimal n.toNat ++ c :: l).takeWhile isDigit = decimal n.toNat := by
    rw [List.takeWhile_append_of_pos fun d hd => isDigit_of_mem_decimal hd,
      List.takeWhile_cons_of_neg (by simp [hc]), List.append_nil]
  have hskip : (decimal n.toNat ++ c :: l).dropWhile isSpace = decimal n.toNat ++ c :: l := by
    rw [hds, List.cons_append, List.dropWhile_cons_of_neg (by simp [hspace])]
  have hhead : (decimal n.toNat ++ c :: l).head? = some d := by
    rw [hds]
    rfl
  have hlt : n.toNat < 2 ^ 32 := n.toNat_lt
  have hno : (some d == some 0x2D) = false ∧ (some d == some 0x2B) = false := by
    simp [hminus, hplus]
  simp only [readUnsigned, hskip, hhead, hno.1, hno.2, Bool.or_false, Bool.false_eq_true, if_false,
    htake, digitsValue_decimal]
  rw [if_pos hlt, UInt32.ofNat_toNat]

end CrankItUp
