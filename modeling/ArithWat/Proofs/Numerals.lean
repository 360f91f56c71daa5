import ArithWat.Proofs.Rounding
import Mathlib.Tactic.FieldSimp

/-!
# Literals mean their leading digits

A numeral is the written form of a decimal number: digits, perhaps a point and more
digits, perhaps an exponent.  Its value is a rational number, which no rounding touches.
The texts that `Decimal.read?` takes are the numerals (`Decimal.read?_written`,
`Decimal.exists_numeral_of_read?`).

A literal is accepted when two rounded values agree, that of the whole numeral and that of
its leading digits.  What this comes to: an accepted literal has the integer of its leading
digits with its sign, and the numeral is within `2 ^ (-22)` of that integer
(`Literal.exists_numeral_of_read`).  And no numeral that is exactly its leading digits is
refused, unless it is out of range (`Literal.read_written`).
-/

namespace ArithWat

/-- The sign of a literal or an exponent, which may be missing. -/
inductive Sign where
  | missing
  | plus
  | minus
  deriving DecidableEq, Repr

namespace Sign

def written : Sign → List Char
  | missing => []
  | plus => ['+']
  | minus => ['-']

/-- A whole number with the sign. -/
def apply : Sign → Nat → Int
  | minus, n => -n
  | _, n => n

def negative : Sign → Bool
  | minus => true
  | _ => false

theorem apply_eq (s : Sign) (n : Nat) : s.apply n = if s.negative then -(n : Int) else n := by
  cases s <;> rfl

/-- A sign before a digit is split off. -/
theorem splitSign_written (s : Sign) {ds : List Char} (hne : ds ≠ [])
    (hdigits : ∀ c ∈ ds, c.isDigit = true) (rest : List Char) :
    Literal.splitSign (s.written ++ (ds ++ rest)) = (s.negative, ds ++ rest) := by
  obtain ⟨c, ds, rfl⟩ := List.exists_cons_of_ne_nil hne
  cases s with
  | missing => exact Literal.splitSign_number (.inl (hdigits c List.mem_cons_self)) (ds ++ rest)
  | plus => rfl
  | minus => rfl

theorem exists_written_eq (cs : List Char) :
    ∃ s : Sign, s.written ++ (Literal.splitSign cs).2 = cs ∧
      s.negative = (Literal.splitSign cs).1 := by
  unfold Literal.splitSign
  split
  · exact ⟨minus, rfl, rfl⟩
  · exact ⟨plus, rfl, rfl⟩
  · exact ⟨missing, rfl, rfl⟩

end Sign

/-- An exponent: its mark, a sign and one digit or more. -/
structure Exponent where
  mark : Char
  sign : Sign
  digits : List Char
  isMark : mark = 'e' ∨ mark = 'E'
  digits_ne_nil : digits ≠ []
  isDigits : ∀ c ∈ digits, c.isDigit = true

namespace Exponent

def written (e : Exponent) : List Char := e.mark :: (e.sign.written ++ e.digits)

def value (e : Exponent) : Int := e.sign.apply (Nat.ofDigitChars 10 e.digits 0)

end Exponent

/-- **A decimal number as it is written**, without a sign.  The fraction may be missing, and
it may be a point alone. -/
structure Numeral where
  whole : List Char
  fraction : Option (List Char)
  exponent : Option Exponent
  whole_ne_nil : whole ≠ []
  whole_isDigits : ∀ c ∈ whole, c.isDigit = true
  fraction_isDigits : ∀ c ∈ fraction.getD [], c.isDigit = true

namespace Numeral

/-- A point and the digits after it, or nothing. -/
def pointed : Option (List Char) → List Char
  | none => []
  | some ds => '.' :: ds

def scaled : Option Exponent → List Char
  | none => []
  | some e => e.written

def written (n : Numeral) : List Char := n.whole ++ (pointed n.fraction ++ scaled n.exponent)

/-- The integer that the leading digits write. -/
def lead (n : Numeral) : Nat := Nat.ofDigitChars 10 n.whole 0

/-- The power of ten. -/
def power (n : Numeral) : Int := (n.exponent.map Exponent.value).getD 0

/-- **The exact value.** -/
def value (n : Numeral) : ℚ :=
  (n.lead + Nat.ofDigitChars 10 (n.fraction.getD []) 0 / 10 ^ (n.fraction.getD []).length) *
    10 ^ n.power

/-- The same number, as digits and a power of ten. -/
def decimal (n : Numeral) : Decimal :=
  ⟨Decimal.natOfDigits (n.whole ++ n.fraction.getD []),
    n.power - (n.fraction.getD []).length⟩

theorem toRat_decimal (n : Numeral) : n.decimal.toRat = n.value := by
  have hdigits : Decimal.natOfDigits (n.whole ++ n.fraction.getD []) =
      10 ^ (n.fraction.getD []).length * n.lead +
        Nat.ofDigitChars 10 (n.fraction.getD []) 0 :=
    (Nat.ofDigitChars_append 0).trans Nat.ofDigitChars_eq_ofDigitChars_zero
  simp only [Decimal.toRat, decimal, value, hdigits]
  rw [zpow_sub₀ (by norm_num), zpow_natCast]
  push_cast
  field_simp

end Numeral

namespace Decimal

/-- A run of digits ends where something else begins. -/
theorem span_digits {ds rest : List Char} (hds : ∀ c ∈ ds, c.isDigit = true)
    (hrest : ∀ c ∈ rest.head?, c.isDigit = false) :
    (ds ++ rest).takeWhile Char.isDigit = ds ∧ (ds ++ rest).dropWhile Char.isDigit = rest := by
  rw [List.takeWhile_append_of_pos hds, List.dropWhile_append_of_pos hds]
  cases rest with
  | nil => simp
  | cons c rest => simp [hrest c rfl]

theorem head_scaled (e : Option Exponent) :
    ∀ c ∈ (Numeral.scaled e).head?, c.isDigit = false ∧ c ≠ '.' := by
  cases e with
  | none => simp [Numeral.scaled]
  | some e =>
    intro c hc
    cases hc
    rcases e.isMark with hmark | hmark <;> rw [hmark] <;> decide

theorem fraction_written {f : Option (List Char)} (hf : ∀ c ∈ f.getD [], c.isDigit = true)
    (e : Option Exponent) :
    fraction (Numeral.pointed f ++ Numeral.scaled e) = (f.getD [], Numeral.scaled e) := by
  have hhead := head_scaled e
  cases f with
  | none =>
    change fraction (Numeral.scaled e) = _
    unfold fraction
    split
    · rename_i cs hcs
      exact absurd rfl (hhead '.' (by rw [hcs]; rfl)).2
    · rfl
  | some ds =>
    obtain ⟨htake, hdrop⟩ := span_digits hf fun c hc => (hhead c hc).1
    exact Prod.ext htake hdrop

theorem wholeNat?_eq_some_iff {cs : List Char} {n : Nat} :
    wholeNat? cs = some n ↔
      cs ≠ [] ∧ (∀ c ∈ cs, c.isDigit = true) ∧ Nat.ofDigitChars 10 cs 0 = n := by
  simp only [wholeNat?, List.all_eq_true]
  constructor
  · intro h
    split at h
    · cases h
      exact ⟨‹_ ∧ _›.1, ‹_ ∧ _›.2, rfl⟩
    · cases h
  · rintro ⟨hne, hdigits, rfl⟩
    exact if_pos ⟨hne, hdigits⟩

/-- The sign of an exponent is split off like that of a literal. -/
theorem exponent?_cons {m : Char} (hm : m = 'e' ∨ m = 'E') (cs : List Char) :
    exponent? (m :: cs) =
      (wholeNat? (Literal.splitSign cs).2).map fun n : Nat =>
        if (Literal.splitSign cs).1 then -(n : Int) else n := by
  unfold exponent?
  dsimp only
  rw [if_pos hm]
  split
  · rename_i ds
    change _ = (wholeNat? ds).map fun n : Nat => -(n : Int)
    cases wholeNat? ds <;> rfl
  · rename_i ds
    change _ = (wholeNat? ds).map fun n : Nat => (n : Int)
    cases wholeNat? ds <;> rfl
  · rename_i hminus hplus
    rw [Literal.splitSign.eq_3 cs hminus hplus]
    cases wholeNat? cs <;> rfl

theorem exponent?_written (e : Option Exponent) :
    exponent? (Numeral.scaled e) = some ((e.map Exponent.value).getD 0) := by
  cases e with
  | none => rfl
  | some e =>
    have hsplit := e.sign.splitSign_written e.digits_ne_nil e.isDigits []
    rw [List.append_nil] at hsplit
    have hwhole := wholeNat?_eq_some_iff.mpr ⟨e.digits_ne_nil, e.isDigits, rfl⟩
    change exponent? (e.mark :: (e.sign.written ++ e.digits)) = some e.value
    rw [exponent?_cons e.isMark, hsplit, hwhole, Exponent.value, Sign.apply_eq]
    rfl

theorem exists_exponent {cs : List Char} {v : Int} (h : exponent? cs = some v) :
    ∃ e : Option Exponent, Numeral.scaled e = cs ∧ (e.map Exponent.value).getD 0 = v := by
  cases cs with
  | nil =>
    cases h
    exact ⟨none, rfl, rfl⟩
  | cons m cs =>
    by_cases hm : m = 'e' ∨ m = 'E'
    · obtain ⟨s, hwritten, hnegative⟩ := Sign.exists_written_eq cs
      rw [exponent?_cons hm, ← hnegative, Option.map_eq_some_iff] at h
      obtain ⟨n, hn, rfl⟩ := h
      obtain ⟨hne, hdigits, rfl⟩ := wholeNat?_eq_some_iff.mp hn
      refine ⟨some ⟨m, s, _, hm, hne, hdigits⟩, ?_, ?_⟩
      · exact congrArg (m :: ·) hwritten
      · exact Sign.apply_eq s _
    · unfold exponent? at h
      dsimp only at h
      rw [if_neg hm] at h
      cases h

theorem span_written (n : Numeral) :
    n.written.takeWhile Char.isDigit = n.whole ∧
      n.written.dropWhile Char.isDigit = Numeral.pointed n.fraction ++ Numeral.scaled n.exponent := by
  refine span_digits n.whole_isDigits ?_
  cases n.fraction with
  | none => exact fun c hc => (head_scaled n.exponent c hc).1
  | some ds =>
    intro c hc
    cases hc
    rfl

/-- **A numeral is read as the number that it writes.** -/
theorem read?_written (n : Numeral) : read? n.written = some n.decimal := by
  obtain ⟨htake, hdrop⟩ := span_written n
  rw [read?, htake, hdrop, fraction_written n.fraction_isDigits]
  simp only [if_neg n.whole_ne_nil, exponent?_written]
  rfl

theorem exists_pointed (cs : List Char) :
    ∃ f : Option (List Char), Numeral.pointed f ++ (fraction cs).2 = cs ∧
      f.getD [] = (fraction cs).1 ∧ ∀ c ∈ f.getD [], c.isDigit = true := by
  unfold fraction
  split
  · rename_i cs
    exact ⟨some (cs.takeWhile Char.isDigit),
      congrArg ('.' :: ·) List.takeWhile_append_dropWhile, rfl, fun c hc => List.mem_takeWhile_imp hc⟩
  · exact ⟨none, rfl, rfl, List.forall_mem_nil _⟩

/-- **Nothing else is read.** -/
theorem exists_numeral_of_read? {cs : List Char} {x : Decimal} (h : read? cs = some x) :
    ∃ n : Numeral, n.written = cs ∧ n.decimal = x := by
  have hcut : cs.takeWhile Char.isDigit ++ cs.dropWhile Char.isDigit = cs :=
    List.takeWhile_append_dropWhile
  obtain ⟨f, hpointed, hfraction, hf⟩ := exists_pointed (cs.dropWhile Char.isDigit)
  rw [read?] at h
  by_cases hne : cs.takeWhile Char.isDigit = []
  · simp [hne] at h
  · simp only [if_neg hne, Option.map_eq_some_iff] at h
    obtain ⟨v, hv, rfl⟩ := h
    obtain ⟨e, hscaled, rfl⟩ := exists_exponent hv
    refine ⟨⟨_, f, e, hne, fun c hc => List.mem_takeWhile_imp hc, hf⟩, ?_, ?_⟩
    · rw [Numeral.written, hscaled, hpointed, hcut]
    · rw [Numeral.decimal, hfraction]
      rfl

end Decimal

namespace Literal

theorem toInt?_finite (s : Sign) (units : Nat) :
    toInt? s.negative (.finite units) = some (s.apply (units / Binary64.one)) := by
  rw [Sign.apply_eq]
  rfl

theorem toInt?_mul_one (s : Sign) (n : Nat) :
    toInt? s.negative (.finite (n * Binary64.one)) = some (s.apply n) := by
  rw [toInt?_finite, Nat.mul_div_cancel n Binary64.one_pos]

theorem lt_of_apply_inRange {s : Sign} {n : Nat}
    (hrange : least ≤ s.apply n ∧ s.apply n ≤ greatest) : n < Nat.pow 2 32 := by
  change n < 4294967296
  unfold least greatest at hrange
  cases s <;> simp only [Sign.apply] at hrange <;> omega

/-- **The value of a whole number gives that number** or none in range: what is rounded is
at least `2 ^ 53` before and after. -/
theorem toInt?_ofNat_iff {s : Sign} {n : Nat} {v : Int} (hrange : least ≤ v ∧ v ≤ greatest) :
    toInt? s.negative (Binary64.ofDecimal (.ofNat n)) = some v ↔ v = s.apply n := by
  by_cases hn : n < Nat.pow 2 53
  · rw [Binary64.ofDecimal_ofNat hn, toInt?_mul_one, Option.some_inj]
    exact eq_comm
  · have hlarge : ∀ m, Nat.pow 2 53 ≤ m → v ≠ s.apply m := by
      rintro m hm rfl
      have hlt := lt_of_apply_inRange hrange
      change 9007199254740992 ≤ m at hm
      change m < 4294967296 at hlt
      omega
    refine iff_of_false ?_ (hlarge n (Nat.le_of_not_lt hn))
    cases hvalue : Binary64.ofDecimal (.ofNat n) with
    | infinite =>
      intro h
      cases h
    | finite units =>
      have hunits := Binary64.le_of_ofDecimal_ofNat (Nat.le_of_not_lt hn) hvalue
      rw [toInt?_finite, Option.some_inj, eq_comm]
      exact hlarge _ ((Nat.le_div_iff_mul_le Binary64.one_pos).mpr hunits)

/-- A numeral is accepted when its value is that of its leading digits. -/
theorem unsigned?_written (n : Numeral) :
    unsigned? n.written =
      if Binary64.ofDecimal n.decimal = Binary64.ofDecimal (.ofNat n.lead) then
        some (Binary64.ofDecimal n.decimal)
      else none := by
  rw [unsigned?, Decimal.read?_written]
  dsimp only
  rw [(Decimal.span_written n).1]
  rfl

theorem exists_numeral_of_unsigned? {cs : List Char} {value : Binary64}
    (h : unsigned? cs = some value) :
    ∃ n : Numeral, n.written = cs ∧ Binary64.ofDecimal n.decimal = value ∧
      Binary64.ofDecimal (.ofNat n.lead) = value := by
  cases hread : Decimal.read? cs with
  | none =>
    rw [unsigned?, hread] at h
    cases h
  | some x =>
    obtain ⟨n, rfl, -⟩ := Decimal.exists_numeral_of_read? hread
    rw [unsigned?_written] at h
    split at h
    · rename_i heq
      cases h
      exact ⟨n, rfl, rfl, heq.symm⟩
    · cases h

theorem lt_pow_of_lt {n : Nat} (h : n < Nat.pow 2 32) : n < Nat.pow 2 53 :=
  Nat.lt_of_lt_of_le h (by decide)

/-- **An accepted literal** is a signed numeral that is nearly its leading digits. -/
theorem exists_numeral_of_read {text : String} {v : Int} (h : read text = .ok v) :
    ∃ (s : Sign) (n : Numeral), text.toList = s.written ++ n.written ∧ v = s.apply n.lead ∧
      (least ≤ v ∧ v ≤ greatest) ∧ |n.value - n.lead| ≤ 1 / 2 ^ 22 := by
  obtain ⟨⟨value, hunsigned, hv⟩, hrange⟩ := read_eq_ok_iff.mp h
  obtain ⟨s, hsign, hnegative⟩ := Sign.exists_written_eq text.toList
  obtain ⟨n, hwritten, hdecimal, hlead⟩ := exists_numeral_of_unsigned? hunsigned
  rw [← hnegative, ← hlead] at hv
  obtain rfl := (toInt?_ofNat_iff hrange).mp hv
  have hlt := lt_of_apply_inRange hrange
  -- The leading digits are not rounded, so the numeral is rounded to them.
  have hvalue := hdecimal.trans (hlead.symm.trans (Binary64.ofDecimal_ofNat (lt_pow_of_lt hlt)))
  refine ⟨s, n, ?_, rfl, hrange, ?_⟩
  · rw [hwritten, hsign]
  · rw [← n.toRat_decimal]
    exact Binary64.abs_toRat_sub_le hlt hvalue

/-- **A signed numeral that is exactly its leading digits** is accepted. -/
theorem read_written {s : Sign} {n : Numeral} (h : n.value = n.lead)
    (hrange : least ≤ s.apply n.lead ∧ s.apply n.lead ≤ greatest) :
    read (String.ofList (s.written ++ n.written)) = .ok (s.apply n.lead) := by
  have hlt := lt_pow_of_lt (lt_of_apply_inRange hrange)
  have hvalue := Binary64.ofDecimal_of_toRat_eq hlt (n.toRat_decimal.trans h)
  have hsplit := s.splitSign_written n.whole_ne_nil n.whole_isDigits
    (Numeral.pointed n.fraction ++ Numeral.scaled n.exponent)
  refine read_eq_ok_iff.mpr ⟨⟨.finite (n.lead * Binary64.one), ?_, ?_⟩, hrange⟩
  · rw [String.toList_ofList, Numeral.written, hsplit]
    change unsigned? n.written = _
    rw [unsigned?_written, hvalue, Binary64.ofDecimal_ofNat hlt]
    exact if_pos rfl
  · rw [String.toList_ofList, Numeral.written, hsplit]
    exact toInt?_mul_one s n.lead

/-- **Literals mean their leading digits.** -/
theorem lead_of_read_and_read_written :
    (∀ (text : String) (v : Int), read text = .ok v →
      ∃ (s : Sign) (n : Numeral), text.toList = s.written ++ n.written ∧
        n.whole = n.written.takeWhile Char.isDigit ∧ v = s.apply n.lead ∧
        -2147483648 ≤ v ∧ v ≤ 4294967295 ∧ |n.value - n.lead| ≤ 1 / 2 ^ 22) ∧
    ∀ (s : Sign) (n : Numeral), n.value = n.lead →
      -2147483648 ≤ s.apply n.lead → s.apply n.lead ≤ 4294967295 →
      read (String.ofList (s.written ++ n.written)) = .ok (s.apply n.lead) := by
  constructor
  · intro text v h
    obtain ⟨s, n, htext, hv, ⟨hleast, hgreatest⟩, hnear⟩ := exists_numeral_of_read h
    exact ⟨s, n, htext, (Decimal.span_written n).1.symm, hv, hleast, hgreatest, hnear⟩
  · intro s n hvalue hleast hgreatest
    exact read_written hvalue ⟨hleast, hgreatest⟩

/-- The first fraction is rounded away and the second is nothing but zeros. -/
theorem lead_of_read_and_read_written_greatest :
    (∃ (s : Sign) (n : Numeral),
      "4294967295.0000001".toList = s.written ++ n.written ∧
        n.whole = n.written.takeWhile Char.isDigit ∧ (4294967295 : Int) = s.apply n.lead ∧
        -2147483648 ≤ (4294967295 : Int) ∧ (4294967295 : Int) ≤ 4294967295 ∧
        |n.value - n.lead| ≤ 1 / 2 ^ 22) ∧
    read "-2147483648.00e+0" = .ok (-2147483648) :=
  ⟨lead_of_read_and_read_written.1 "4294967295.0000001" 4294967295 (by decide +kernel),
    lead_of_read_and_read_written.2 .minus
      ⟨"2147483648".toList, some "00".toList,
        some ⟨'e', .plus, "0".toList, by decide, by decide, List.all_eq_true.mp rfl⟩,
        by decide, List.all_eq_true.mp rfl, List.all_eq_true.mp rfl⟩
      (by simp [Numeral.value, Numeral.power, Numeral.lead, Exponent.value, Sign.apply,
        Nat.ofDigitChars]) (by decide) (by decide)⟩

end Literal

end ArithWat
