import ArithWat.Number.Literal
import Mathlib.Data.List.TakeWhile

/-!
# Integer literals are exact

A literal that is read has a value in the range of literals, and it is negative only with
a minus sign (`Literal.read_eq_ok_iff`, `Literal.nonneg_of_read`).  Conversely a run of
digits, with or without a sign, is read as the integer that it writes whenever that
integer is in range (`Literal.read_digits`): whole numbers below `2 ^ 53` are binary64
values, so rounding does nothing to them.
-/

namespace ArithWat

namespace Binary64

theorem one_pos : 0 < one := Nat.two_pow_pos _

/-- A multiple is not rounded. -/
theorem roundQuotient_mul_of_dvd {n d : Nat} (hd : 0 < d) (h : d ∣ n) :
    roundQuotient n d * d = n := by
  obtain ⟨k, rfl⟩ := h
  have hround : roundQuotient (d * k) d = k := by
    unfold roundQuotient
    simp only [Nat.mul_mod_right, Nat.mul_div_cancel_left k hd]
    exact if_pos hd
  rw [hround, Nat.mul_comm]

-- The exponents are variables here, so that no power is evaluated.
theorem mul_pow_lt {n j k m : Nat} (hn : n < Nat.pow 2 j) (hm : j + k ≤ m) :
    n * Nat.pow 2 k < Nat.pow 2 m :=
  calc
    n * 2 ^ k < 2 ^ j * 2 ^ k := Nat.mul_lt_mul_of_pos_right hn (Nat.two_pow_pos k)
    _ = 2 ^ (j + k) := (Nat.pow_add 2 j k).symm
    _ ≤ 2 ^ m := Nat.pow_le_pow_right Nat.two_pos hm

/-- Numbers of up to 53 binary digits, shifted, are on the grid. -/
theorem grid_dvd {n k : Nat} (hn : n < Nat.pow 2 53) :
    grid (n * Nat.pow 2 k) ∣ n * Nat.pow 2 k := by
  have hlog : (n * Nat.pow 2 k).log2 - 52 ≤ k := by
    by_cases hzero : n * Nat.pow 2 k = 0
    · rw [hzero]
      exact Nat.zero_le k
    · have := (Nat.log2_lt hzero).mpr (mul_pow_lt hn (Nat.le_refl _))
      omega
  exact Nat.dvd_mul_left_of_dvd (Nat.pow_dvd_pow 2 hlog) n

/-- **Whole numbers below `2 ^ 53` are values.** -/
theorem ofQuotient_one {n : Nat} (hn : n < Nat.pow 2 53) :
    ofQuotient n 1 = .finite (n * one) := by
  have hround : roundQuotient (n * one) (grid (n * one)) * grid (n * one) = n * one :=
    roundQuotient_mul_of_dvd (Nat.two_pow_pos _) (grid_dvd hn)
  have hlt : n * one < overflow := mul_pow_lt hn (by decide)
  simp only [ofQuotient, Nat.div_one, Nat.one_mul, hround]
  exact if_pos hlt

theorem ofDecimal_ofNat {n : Nat} (hn : n < Nat.pow 2 53) :
    ofDecimal (.ofNat n) = .finite (n * one) := by
  have hpow : n * Nat.pow 10 0 = n := Nat.mul_one n
  change (if n = 0 then Binary64.finite 0
    else if 400 ≤ 0 then .infinite else ofQuotient (n * Nat.pow 10 0) 1) = _
  rw [hpow, ofQuotient_one hn]
  split
  · rename_i hzero
    rw [hzero, Nat.zero_mul]
  · rfl

end Binary64

namespace Decimal

/-- A number is written with one digit or more. -/
theorem exists_toDigits_eq_cons (n : Nat) :
    ∃ d ds, Nat.toDigits 10 n = d :: ds ∧ d.isDigit = true ∧ ∀ c ∈ ds, c.isDigit = true := by
  have hdigits : ∀ c ∈ Nat.toDigits 10 n, c.isDigit = true := fun c hc =>
    Nat.isDigit_of_mem_toDigits (by decide) (by decide) hc
  obtain ⟨d, ds, hcons⟩ := List.exists_cons_of_ne_nil (Nat.toDigits_ne_nil (b := 10) (n := n))
  rw [hcons, List.forall_mem_cons] at hdigits
  exact ⟨d, ds, hcons, hdigits⟩

/-- A run of digits is read as the whole number that it writes. -/
theorem read?_digits {ds : List Char} (hne : ds ≠ []) (hdigits : ∀ c ∈ ds, c.isDigit = true) :
    read? ds = some (.ofNat (natOfDigits ds)) := by
  have htake := List.takeWhile_eq_self_iff.mpr hdigits
  have hdrop := List.dropWhile_eq_nil_iff.mpr hdigits
  simp [read?, htake, hdrop, hne, fraction, exponent?, ofNat]

end Decimal

namespace Literal

/-- What it takes for a literal to be read. -/
theorem read_eq_ok_iff {text : String} {v : Int} :
    read text = .ok v ↔
      (∃ value, unsigned? (splitSign text.toList).2 = some value ∧
        toInt? (splitSign text.toList).1 value = some v) ∧ least ≤ v ∧ v ≤ greatest := by
  unfold read
  generalize splitSign text.toList = x
  obtain ⟨negative, cs⟩ := x
  dsimp only
  cases hunsigned : unsigned? cs with
  | none => simp
  | some value =>
    dsimp only
    cases hint : toInt? negative value with
    | none => simp [hint]
    | some w =>
      dsimp only
      constructor
      · intro h
        split at h
        · cases h
          exact ⟨⟨value, rfl, hint⟩, ‹_›⟩
        · cases h
      · rintro ⟨⟨value', hvalue, hv⟩, hrange⟩
        cases hvalue
        cases hint.symm.trans hv
        exact if_pos hrange

/-- A number that begins with a digit or a point has no sign. -/
theorem splitSign_number {c : Char} (hc : c.isDigit = true ∨ c = '.') (cs : List Char) :
    splitSign (c :: cs) = (false, c :: cs) := by
  unfold splitSign
  split
  · cases ‹_ :: _ = _›
    exact absurd hc (by decide)
  · cases ‹_ :: _ = _›
    exact absurd hc (by decide)
  · rfl

/-- **A literal without a minus sign is not negative.** -/
theorem nonneg_of_read {text : String} {v : Int} (h : read text = .ok v)
    (hsign : (splitSign text.toList).1 = false) : 0 ≤ v := by
  obtain ⟨⟨value, -, hv⟩, -⟩ := read_eq_ok_iff.mp h
  rw [hsign] at hv
  cases value with
  | infinite => cases hv
  | finite units =>
    cases hv
    exact Int.natCast_nonneg _

/-- **A run of digits is read as the integer that it writes**, with its sign. -/
theorem read_digits {text : String} {v : Int} (negative : Bool) (ds : List Char)
    (hsplit : splitSign text.toList = (negative, ds)) (hne : ds ≠ [])
    (hdigits : ∀ c ∈ ds, c.isDigit = true)
    (hv : v = if negative then -(Decimal.natOfDigits ds : Int) else Decimal.natOfDigits ds)
    (hrange : least ≤ v ∧ v ≤ greatest) : read text = .ok v := by
  have hsmall : Decimal.natOfDigits ds < Nat.pow 2 53 := by
    change Decimal.natOfDigits ds < 9007199254740992
    unfold least greatest at hrange
    cases negative <;> simp at hv <;> omega
  have hvalue : unsigned? ds = some (.finite (Decimal.natOfDigits ds * Binary64.one)) := by
    simp [unsigned?, Decimal.read?_digits hne hdigits, List.takeWhile_eq_self_iff.mpr hdigits,
      Binary64.ofDecimal_ofNat hsmall]
  have hunits : Decimal.natOfDigits ds * Binary64.one / Binary64.one = Decimal.natOfDigits ds :=
    Nat.mul_div_cancel _ Binary64.one_pos
  refine read_eq_ok_iff.mpr ⟨?_, hrange⟩
  rw [hsplit]
  refine ⟨_, hvalue, ?_⟩
  rw [hv, toInt?]
  simp only [← Int.natCast_ediv, hunits]

end Literal

end ArithWat
