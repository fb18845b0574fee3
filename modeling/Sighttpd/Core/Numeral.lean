import Sighttpd.Core.CString

/-!
# Numbers as text

The conversions `%d`, `%x` and `%0Nd` of `printf`, and `atoi`, which is
`(int) strtol (s, NULL, 10)`: white space, a sign, and digits up to the first other byte,
held to the range of a `long` of 64 bits. The digits are those of `Nat.toDigits`.

* `atoi_decimal`: an `int` that is printed with `%d` is read back.
* `atoi_stop`: of a number with a prefix such as `0x` only the 0 is read.
-/
namespace Sighttpd.Numeral

/-! ## Printing -/

/-- The digits of a number; lower case, as `%x` has it. -/
def natText (base n : Nat) : Bytes := (Nat.toDigits base n).map fun c => UInt8.ofNat c.toNat

/-- `%d` -/
def decimal (z : Int) : Bytes := if z < 0 then 45 :: natText 10 z.natAbs else natText 10 z.natAbs

/-- `%0Nd` and `%0Nx` of what is not negative. -/
def zeroPadded (width : Nat) (t : Bytes) : Bytes := t.leftpad width 48

/-- `%Nd` -/
def spacePadded (width : Nat) (t : Bytes) : Bytes := t.leftpad width 32

/-! ## Reading -/

def isSpace (c : UInt8) : Bool := c = 32 ∨ (9 ≤ c ∧ c ≤ 13)

def isDigit (c : UInt8) : Bool := 48 ≤ c ∧ c ≤ 57

def digitsValue (s : Bytes) : Nat := s.foldl (fun n c => 10 * n + (c.toNat - 48)) 0

/-- The digits at the front of a string. -/
def leadingValue (s : Bytes) : Nat := digitsValue (s.takeWhile isDigit)

/-- The number at the front of a string, without bounds. -/
def leadingInt (s : Bytes) : Int :=
  match s.dropWhile isSpace with
  | [] => 0
  | c :: t => if c = 45 then -leadingValue t else if c = 43 then leadingValue t else leadingValue (c :: t)

/-- `strtol (s, NULL, 10)` -/
def strtol (s : Bytes) : Int := max (-9223372036854775808) (min 9223372036854775807 (leadingInt s))

def atoi (s : Bytes) : Int := (strtol s).bmod 4294967296

/-! ## What is printed -/

theorem toNat_of_isDigit {d : Char} (h : d.isDigit) : 48 ≤ d.toNat ∧ d.toNat ≤ 57 := by
  simp only [Char.isDigit, Bool.and_eq_true, decide_eq_true_eq, ge_iff_le, UInt32.le_iff_toNat_le] at h
  exact h

theorem toNat_ofNat_char {d : Char} (h : d.isDigit) : (UInt8.ofNat d.toNat).toNat = d.toNat := by
  have := toNat_of_isDigit h
  rw [UInt8.toNat_ofNat']
  omega

theorem natText_digit (n : Nat) : ∀ c ∈ natText 10 n, isDigit c := by
  intro c hc
  obtain ⟨d, hd, rfl⟩ := List.mem_map.mp hc
  have hdigit : d.isDigit := Nat.isDigit_of_mem_toDigits (by decide) (by decide) hd
  have hrange := toNat_of_isDigit hdigit
  rw [isDigit, decide_eq_true_eq, UInt8.le_iff_toNat_le, UInt8.le_iff_toNat_le, toNat_ofNat_char hdigit]
  exact hrange

theorem natText_ne_nil (base n : Nat) : natText base n ≠ [] := by
  rw [natText, Ne, List.map_eq_nil_iff]
  exact Nat.toDigits_ne_nil

theorem digitsValue_map {l : List Char} (h : ∀ d ∈ l, d.isDigit) :
    digitsValue (l.map fun c => UInt8.ofNat c.toNat) = Nat.ofDigitChars 10 l 0 := by
  rw [digitsValue, List.foldl_map, Nat.ofDigitChars_eq_foldl]
  refine List.foldl_ext _ _ 0 fun n d hd => ?_
  rw [toNat_ofNat_char (h d hd)]
  rfl

theorem digitsValue_natText (n : Nat) : digitsValue (natText 10 n) = n := by
  have hdigits : ∀ d ∈ Nat.toDigits 10 n, d.isDigit :=
    fun d hd => Nat.isDigit_of_mem_toDigits (by decide) (by decide) hd
  rw [natText, digitsValue_map hdigits, Nat.ofDigitChars_ten_toDigits]

theorem leadingValue_natText (n : Nat) : leadingValue (natText 10 n) = n := by
  rw [leadingValue, List.takeWhile_eq_self_iff.mpr (natText_digit n), digitsValue_natText]

theorem not_isSpace_of_isDigit {c : UInt8} (h : isDigit c) : isSpace c = false := by
  have h' : 48 ≤ c.toNat := by
    rw [isDigit, decide_eq_true_eq, UInt8.le_iff_toNat_le] at h
    exact h.1
  rw [isSpace, decide_eq_false_iff_not, UInt8.le_iff_toNat_le, UInt8.le_iff_toNat_le]
  rintro (rfl | ⟨-, h13⟩)
  · exact absurd h' (by decide)
  · exact absurd (Nat.le_trans h' h13) (by decide)

/-! ## What is read back -/

/-- A number that starts with a digit has no sign. -/
theorem leadingInt_digit {c : UInt8} {t : Bytes} (h : isDigit c) :
    leadingInt (c :: t) = leadingValue (c :: t) := by
  have hne : ∀ d : UInt8, isDigit d = false → c ≠ d := by
    rintro d hd rfl
    rw [h] at hd
    exact absurd hd (by decide)
  rw [leadingInt, List.dropWhile_cons_of_neg (by simp [not_isSpace_of_isDigit h])]
  simp only [if_neg (hne 45 (by decide)), if_neg (hne 43 (by decide))]

theorem leadingInt_decimal (z : Int) : leadingInt (decimal z) = z := by
  unfold decimal
  split
  · rename_i hz
    rw [leadingInt, List.dropWhile_cons_of_neg (by decide)]
    simp only [if_true, leadingValue_natText]
    omega
  · rename_i hz
    obtain ⟨c, t, hc⟩ := List.exists_cons_of_ne_nil (natText_ne_nil 10 z.natAbs)
    have hdigit : isDigit c := natText_digit z.natAbs c (by rw [hc]; exact List.mem_cons_self ..)
    rw [hc, leadingInt_digit hdigit, ← hc, leadingValue_natText]
    omega

theorem atoi_decimal {z : Int} (h1 : -2147483648 ≤ z) (h2 : z < 2147483648) :
    atoi (decimal z) = z := by
  have hlong : strtol (decimal z) = z := by
    rw [strtol, leadingInt_decimal]
    omega
  rw [atoi, hlong]
  exact Int.bmod_eq_of_le (by omega) (by omega)

/-- Behind a leading 0 the first byte that is no digit ends the number. -/
theorem atoi_stop {c : UInt8} (t : Bytes) (h : isDigit c = false) : atoi (48 :: c :: t) = 0 := by
  have hvalue : leadingValue (48 :: c :: t) = 0 := by
    rw [leadingValue, List.takeWhile_cons_of_pos (by decide), List.takeWhile_cons_of_neg (by simp [h])]
    rfl
  rw [atoi, strtol, leadingInt_digit (by decide), hvalue]
  rfl

end Sighttpd.Numeral
