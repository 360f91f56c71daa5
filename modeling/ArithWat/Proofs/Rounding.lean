import ArithWat.Proofs.Literals
import Mathlib.Algebra.Order.Field.Rat
import Mathlib.Tactic.Linarith
import Mathlib.Tactic.NormNum
import Mathlib.Tactic.Positivity
import Mathlib.Tactic.Ring

/-!
# How far rounding goes

The value nearest to a quotient is at most half a step of the grid away from it, and the
step is that of the value itself or smaller (`Binary64.grid_le_of_nearestUnits_lt`).  So a
decimal number whose nearest value is a whole number of 32 binary digits is within
`2 ^ (-22)` of that number (`Binary64.abs_toRat_sub_le`), however long it is written and
however large its exponent.  In the other direction a decimal number that is a whole
number below `2 ^ 53` is not rounded at all (`Binary64.ofDecimal_of_toRat_eq`), and a whole
number from `2 ^ 53` on is not rounded below it (`Binary64.le_of_ofDecimal_ofNat`).
-/

namespace ArithWat

namespace Binary64

/-- A common factor cancels. -/
theorem roundQuotient_mul_mul (n m : Nat) {d : Nat} (hd : 0 < d) :
    roundQuotient (d * n) (d * m) = roundQuotient n m := by
  have hdouble : 2 * (d * (n % m)) = d * (2 * (n % m)) := Nat.mul_left_comm 2 d _
  simp only [roundQuotient, Nat.mul_div_mul_left n m hd, Nat.mul_mod_mul_left, hdouble,
    Nat.mul_lt_mul_left hd]

/-- The nearest value depends on the quotient alone. -/
theorem ofQuotient_mul_mul (n m : Nat) {d : Nat} (hd : 0 < d) :
    ofQuotient (d * n) (d * m) = ofQuotient n m := by
  simp only [ofQuotient, Nat.mul_assoc, Nat.mul_div_mul_left (n * one) m hd,
    roundQuotient_mul_mul _ _ hd]

/-- **A rounded quotient is at most half of one away from it.** -/
theorem roundQuotient_error (n : Nat) {d : Nat} (hd : 0 < d) :
    2 * n ≤ 2 * (roundQuotient n d * d) + d ∧ 2 * (roundQuotient n d * d) ≤ 2 * n + d := by
  have hdiv := Nat.div_add_mod n d
  have hlt := Nat.mod_lt n hd
  unfold roundQuotient
  dsimp only
  generalize n / d = q at *
  generalize n % d = r at *
  have hcomm : q * d = d * q := Nat.mul_comm q d
  split
  · omega
  split
  · rw [Nat.add_mul, Nat.one_mul]
    omega
  -- At the half either neighbour will do.
  · rcases Nat.mod_two_eq_zero_or_one q with heven | hodd
    · rw [heven, Nat.add_zero]
      omega
    · rw [hodd, Nat.add_mul, Nat.one_mul]
      omega

theorem div_le_roundQuotient (n d : Nat) : n / d ≤ roundQuotient n d := by
  unfold roundQuotient
  dsimp only
  split
  · exact Nat.le_refl _
  split
  · exact Nat.le_succ _
  · exact Nat.le_add_right _ _

/-- The units nearest to `n / d`, on a grid without an end. -/
def nearestUnits (n d : Nat) : Nat :=
  roundQuotient (n * one) (d * grid (n * one / d)) * grid (n * one / d)

theorem ofQuotient_eq (n d : Nat) :
    ofQuotient n d =
      if nearestUnits n d < overflow then .finite (nearestUnits n d) else .infinite := rfl

theorem nearestUnits_of_ofQuotient {n d u : Nat} (h : ofQuotient n d = .finite u) :
    nearestUnits n d = u := by
  rw [ofQuotient_eq] at h
  split at h
  · exact Binary64.finite.inj h
  · cases h

theorem grid_eq (u : Nat) : grid u = 2 ^ (u.log2 - 52) := rfl

theorem grid_pos (u : Nat) : 0 < grid u := Nat.two_pow_pos _

/-- The power of two at or below the units of a quotient is on its grid, so rounding does
not go below it. -/
theorem pow_log2_le_nearestUnits {n d : Nat} (hd : 0 < d) (hq : n * one / d ≠ 0) :
    2 ^ (n * one / d).log2 ≤ nearestUnits n d := by
  have hstep : 2 ^ (n * one / d).log2 =
      2 ^ min (n * one / d).log2 52 * grid (n * one / d) := by
    rw [grid_eq, ← Nat.pow_add]
    congr 1
    omega
  have hle : 2 ^ (n * one / d).log2 * d ≤ n * one :=
    (Nat.le_div_iff_mul_le hd).mp (Nat.log2_self_le hq)
  rw [nearestUnits, hstep]
  refine Nat.mul_le_mul_right _ ?_
  refine Nat.le_trans ?_ (div_le_roundQuotient _ _)
  rw [Nat.le_div_iff_mul_le (Nat.mul_pos hd (grid_pos _))]
  calc
    2 ^ min (n * one / d).log2 52 * (d * grid (n * one / d))
      = 2 ^ (n * one / d).log2 * d := by rw [hstep]; ring
    _ ≤ n * one := hle

theorem pow_le_nearestUnits {n d k : Nat} (hd : 0 < d) (h : Nat.pow 2 k * d ≤ n * one) :
    Nat.pow 2 k ≤ nearestUnits n d := by
  have hle : 2 ^ k ≤ n * one / d := (Nat.le_div_iff_mul_le hd).mpr h
  have hq : n * one / d ≠ 0 := Nat.ne_of_gt (Nat.lt_of_lt_of_le (Nat.two_pow_pos k) hle)
  have hlog : k ≤ (n * one / d).log2 := (Nat.le_log2 hq).mpr hle
  exact Nat.le_trans (Nat.pow_le_pow_right Nat.two_pos hlog) (pow_log2_le_nearestUnits hd hq)

/-- **The step of a quotient's grid is that of its value or smaller.** -/
theorem grid_le_of_nearestUnits_lt {n d m : Nat} (hd : 0 < d)
    (h : nearestUnits n d < Nat.pow 2 m) : grid (n * one / d) ≤ Nat.pow 2 (m - 53) := by
  refine Nat.pow_le_pow_right Nat.two_pos ?_
  by_cases hq : n * one / d = 0
  · rw [hq]
    exact Nat.zero_le _
  · have hlog : (n * one / d).log2 < m :=
      (Nat.pow_lt_pow_iff_right Nat.one_lt_two).mp
        (Nat.lt_of_le_of_lt (pow_log2_le_nearestUnits hd hq) h)
    omega

/-- The nearest units are at most half a step of the grid away. -/
theorem nearestUnits_error (n : Nat) {d : Nat} (hd : 0 < d) :
    2 * (n * one) ≤ 2 * (nearestUnits n d * d) + d * grid (n * one / d) ∧
      2 * (nearestUnits n d * d) ≤ 2 * (n * one) + d * grid (n * one / d) := by
  have herror := roundQuotient_error (n * one) (Nat.mul_pos hd (grid_pos (n * one / d)))
  have hunits : roundQuotient (n * one) (d * grid (n * one / d)) * (d * grid (n * one / d)) =
      nearestUnits n d * d := by
    rw [nearestUnits]
    ring
  rwa [hunits] at herror

-- The exponents are variables here as well.
theorem grid_mul_pow_le {n d k i j e : Nat} (hd : 0 < d) (hk : k < Nat.pow 2 j)
    (h : nearestUnits n d = k * Nat.pow 2 e) (hi : j + e - 53 + i ≤ e) :
    grid (n * one / d) * Nat.pow 2 i ≤ Nat.pow 2 e := by
  have hlt : nearestUnits n d < Nat.pow 2 (j + e) := h ▸ mul_pow_lt hk (Nat.le_refl _)
  calc
    grid (n * one / d) * 2 ^ i ≤ 2 ^ (j + e - 53) * 2 ^ i :=
      Nat.mul_le_mul_right _ (grid_le_of_nearestUnits_lt hd hlt)
    _ = 2 ^ (j + e - 53 + i) := (Nat.pow_add 2 _ _).symm
    _ ≤ 2 ^ e := Nat.pow_le_pow_right Nat.two_pos hi

/-- **A quotient whose value is a whole number of 32 binary digits** is within `2 ^ (-22)`
of it: below `2 ^ 32` there are `2 ^ 21` steps of the grid to one. -/
theorem quotient_error {n d k : Nat} (hd : 0 < d) (hk : k < Nat.pow 2 32)
    (h : ofQuotient n d = .finite (k * one)) :
    4194304 * n ≤ 4194304 * (k * d) + d ∧ 4194304 * (k * d) ≤ 4194304 * n + d := by
  have hnear := nearestUnits_of_ofQuotient h
  have hstep : grid (n * one / d) * 2097152 ≤ one :=
    grid_mul_pow_le (i := 21) hd hk hnear (by decide)
  have hscaled : d * grid (n * one / d) * 2097152 ≤ d * one := by
    rw [Nat.mul_assoc]
    exact Nat.mul_le_mul_left d hstep
  obtain ⟨hlow, hhigh⟩ := nearestUnits_error n hd
  rw [hnear] at hlow hhigh
  have hone := one_pos
  generalize one = u at *
  constructor
  · refine Nat.le_of_mul_le_mul_right ?_ hone
    linarith
  · refine Nat.le_of_mul_le_mul_right ?_ hone
    linarith

theorem abs_div_sub_le {n d k : Nat} (hd : 0 < d) (hk : k < Nat.pow 2 32)
    (h : ofQuotient n d = .finite (k * one)) : |(n : ℚ) / d - k| ≤ 1 / 2 ^ 22 := by
  obtain ⟨hlow, hhigh⟩ := quotient_error hd hk h
  have hlow : 4194304 * (n : ℚ) ≤ 4194304 * (k * d) + d := mod_cast hlow
  have hhigh : 4194304 * (k * d : ℚ) ≤ 4194304 * n + d := mod_cast hhigh
  have hd : 0 < (d : ℚ) := mod_cast hd
  rw [abs_sub_le_iff, sub_le_iff_le_add, sub_le_comm, div_le_iff₀ hd, le_div_iff₀ hd]
  constructor <;> linarith

end Binary64

/-- The exact value of a decimal number. -/
def Decimal.toRat (x : Decimal) : ℚ := x.digits * 10 ^ x.exponent

namespace Decimal

theorem toRat_ofNat (m e : Nat) : toRat ⟨m, .ofNat e⟩ = (m * 10 ^ e : Nat) := by
  simp [toRat]

theorem toRat_negSucc (m e : Nat) : toRat ⟨m, .negSucc e⟩ = m / (10 ^ (e + 1) : Nat) := by
  simp [toRat, zpow_negSucc, div_eq_mul_inv]

end Decimal

namespace Binary64

theorem ofDecimal_eq_ofNat (m e : Nat) :
    ofDecimal ⟨m, .ofNat e⟩ =
      if m = 0 then .finite 0
      else if 400 ≤ e then .infinite else ofQuotient (m * 10 ^ e) 1 := rfl

theorem ofDecimal_eq_negSucc (m e : Nat) :
    ofDecimal ⟨m, .negSucc e⟩ =
      if m.log2 + 401 ≤ e then .finite 0 else ofQuotient m (10 ^ (e + 1)) := rfl

theorem pow_two_le_pow_ten (e : Nat) : 2 ^ e ≤ 10 ^ e := Nat.pow_le_pow_left (by decide) e

/-- A number whose value is taken to be zero is small. -/
theorem mul_le_pow_of_log2_le {m e : Nat} (h : m.log2 + 401 ≤ e) :
    4194304 * m ≤ 10 ^ (e + 1) :=
  calc
    4194304 * m = 2 ^ 22 * m := rfl
    _ ≤ 2 ^ 22 * 2 ^ (m.log2 + 1) := Nat.mul_le_mul_left _ (Nat.le_of_lt Nat.lt_log2_self)
    _ = 2 ^ (22 + (m.log2 + 1)) := (Nat.pow_add 2 _ _).symm
    _ ≤ 2 ^ (e + 1) := Nat.pow_le_pow_right Nat.two_pos (by omega)
    _ ≤ 10 ^ (e + 1) := pow_two_le_pow_ten _

theorem eq_zero_of_finite_eq {k : Nat} (h : Binary64.finite 0 = .finite (k * one)) : k = 0 :=
  (Nat.mul_eq_zero.mp (Binary64.finite.inj h).symm).resolve_right (Nat.ne_of_gt one_pos)

/-- **A decimal number whose value is a whole number of 32 binary digits** is within
`2 ^ (-22)` of it. -/
theorem abs_toRat_sub_le {x : Decimal} {k : Nat} (hk : k < Nat.pow 2 32)
    (h : ofDecimal x = .finite (k * one)) : |x.toRat - k| ≤ 1 / 2 ^ 22 := by
  obtain ⟨m, e⟩ := x
  cases e with
  | ofNat e =>
    rw [ofDecimal_eq_ofNat] at h
    rw [Decimal.toRat_ofNat]
    by_cases hm : m = 0
    · rw [if_pos hm] at h
      simp [hm, eq_zero_of_finite_eq h]
    rw [if_neg hm] at h
    split at h
    · cases h
    · simpa using abs_div_sub_le Nat.one_pos hk h
  | negSucc e =>
    rw [ofDecimal_eq_negSucc] at h
    rw [Decimal.toRat_negSucc]
    have hpos : 0 < 10 ^ (e + 1) := Nat.pow_pos (by decide)
    by_cases hsmall : m.log2 + 401 ≤ e
    · rw [if_pos hsmall] at h
      have hle : 4194304 * (m : ℚ) ≤ (10 ^ (e + 1) : Nat) :=
        mod_cast mul_le_pow_of_log2_le hsmall
      have hpos : 0 < ((10 ^ (e + 1) : Nat) : ℚ) := Nat.cast_pos.mpr hpos
      rw [eq_zero_of_finite_eq h, Nat.cast_zero, sub_zero, abs_of_nonneg (by positivity),
        div_le_iff₀ hpos]
      linarith
    · rw [if_neg hsmall] at h
      exact abs_div_sub_le hpos hk h

/-- **A decimal number that is a whole number below `2 ^ 53` is its own value**, also where
it is written with a fraction or an exponent. -/
theorem ofDecimal_of_toRat_eq {x : Decimal} {k : Nat} (hk : k < Nat.pow 2 53)
    (h : x.toRat = k) : ofDecimal x = .finite (k * one) := by
  obtain ⟨m, e⟩ := x
  cases e with
  | ofNat e =>
    rw [Decimal.toRat_ofNat, Nat.cast_inj] at h
    rw [ofDecimal_eq_ofNat]
    by_cases hm : m = 0
    · rw [if_pos hm, ← h, hm, Nat.zero_mul, Nat.zero_mul]
    rw [if_neg hm, h, ofQuotient_one hk]
    -- A positive multiple of `10 ^ 400` is no number below `2 ^ 53`.
    refine if_neg fun he => Nat.lt_irrefl k ?_
    calc
      k < 2 ^ 53 := hk
      _ ≤ 10 ^ 53 := pow_two_le_pow_ten 53
      _ ≤ 10 ^ e := Nat.pow_le_pow_right (by decide) (by omega)
      _ ≤ m * 10 ^ e := Nat.le_mul_of_pos_left _ (Nat.pos_of_ne_zero hm)
      _ = k := h
  | negSucc e =>
    have hpos : 0 < 10 ^ (e + 1) := Nat.pow_pos (by decide)
    have hm : m = 10 ^ (e + 1) * k := by
      have hne : ((10 ^ (e + 1) : Nat) : ℚ) ≠ 0 := Nat.cast_ne_zero.mpr (Nat.ne_of_gt hpos)
      rw [Decimal.toRat_negSucc, div_eq_iff hne, ← Nat.cast_mul, Nat.cast_inj] at h
      rw [h, Nat.mul_comm]
    rw [ofDecimal_eq_negSucc]
    by_cases hsmall : m.log2 + 401 ≤ e
    · rw [if_pos hsmall]
      have hle := mul_le_pow_of_log2_le hsmall
      by_cases hk : k = 0
      · rw [hk, Nat.zero_mul]
      · have := Nat.le_mul_of_pos_right (10 ^ (e + 1)) (Nat.pos_of_ne_zero hk)
        omega
    · have hscaled := ofQuotient_mul_mul k 1 hpos
      rw [Nat.mul_one] at hscaled
      rw [if_neg hsmall, hm, hscaled, ofQuotient_one hk]

theorem pow_mul_one_le {n j : Nat} (hn : Nat.pow 2 j ≤ n) :
    Nat.pow 2 j * one ≤ nearestUnits n 1 := by
  have hpow : Nat.pow 2 j * one = Nat.pow 2 (j + 1074) := (Nat.pow_add 2 j _).symm
  rw [hpow]
  refine pow_le_nearestUnits Nat.one_pos ?_
  rw [← hpow, Nat.mul_one]
  exact Nat.mul_le_mul_right one hn

/-- **A whole number from `2 ^ 53` on is not rounded below `2 ^ 53`.** -/
theorem le_of_ofDecimal_ofNat {n u : Nat} (hn : Nat.pow 2 53 ≤ n)
    (h : ofDecimal (.ofNat n) = .finite u) : Nat.pow 2 53 * one ≤ u := by
  have hne : n ≠ 0 := Nat.ne_of_gt (Nat.lt_of_lt_of_le (Nat.two_pow_pos 53) hn)
  have hquotient : ofQuotient n 1 = .finite u := by
    have hcases := ofDecimal_eq_ofNat n 0
    rw [if_neg hne, if_neg (by decide), Nat.pow_zero, Nat.mul_one] at hcases
    exact hcases.symm.trans h
  exact nearestUnits_of_ofQuotient hquotient ▸ pow_mul_one_le hn

end Binary64

end ArithWat
