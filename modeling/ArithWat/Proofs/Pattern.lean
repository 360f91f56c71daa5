import ArithWat.Proofs.Restart

/-!
# Patterns and longest matches

Regular expressions over characters (`Pattern`), the texts that they match (`Matches`), and
how long a match at the front of a text can get (`Longest`).

A longest match of one pattern after another need not begin with a longest match of the first.
It does if a shorter match of the first is followed by a character that no match of the second
begins with (`Longest.seq`).  The patterns of numbers are of this kind, so scanning a number
need not go back: the last section says that the lengths which `Scan` computes are those of
longest matches.
-/

namespace ArithWat

/-- **Regular expressions over characters.**  A class is a list of ranges, ends included. -/
inductive Pattern where
  /-- A character of a class. -/
  | one (ranges : List (Char × Char))
  /-- A character that is not of a class. -/
  | other (ranges : List (Char × Char))
  /-- One pattern after another. -/
  | seq (first second : Pattern)
  /-- A pattern, or nothing. -/
  | opt (body : Pattern)
  /-- A pattern any number of times. -/
  | many (body : Pattern)
  deriving DecidableEq, Repr

namespace Pattern

/-- Whether a character is in one of some ranges. -/
def inRanges (ranges : List (Char × Char)) (c : Char) : Bool :=
  ranges.any fun (lo, hi) => lo ≤ c && c ≤ hi

/-- **The texts that a pattern matches.** -/
def Matches : Pattern → List Char → Prop
  | one ranges, s => ∃ c, s = [c] ∧ inRanges ranges c = true
  | other ranges, s => ∃ c, s = [c] ∧ inRanges ranges c = false
  | seq a b, s => ∃ x y, s = x ++ y ∧ a.Matches x ∧ b.Matches y
  | opt a, s => s = [] ∨ a.Matches s
  | many a, s => ∃ parts : List (List Char), s = parts.flatten ∧ ∀ x ∈ parts, a.Matches x

/-! ## Classes -/

/-- The pattern matches the characters of the class `p`, each alone. -/
def IsClass (r : Pattern) (p : Char → Bool) : Prop :=
  ∀ s, r.Matches s ↔ ∃ c, s = [c] ∧ p c = true

theorem isClass_one {ranges : List (Char × Char)} {p : Char → Bool}
    (h : ∀ c, inRanges ranges c = p c) : IsClass (one ranges) p := by
  intro s
  simp only [Matches, h]

theorem isClass_other {ranges : List (Char × Char)} {p : Char → Bool}
    (h : ∀ c, inRanges ranges c = !p c) : IsClass (other ranges) p := by
  intro s
  simp only [Matches, h, Bool.not_eq_false']

section
variable {r b : Pattern} {p : Char → Bool} {c : Char} {s cs : List Char}

/-- A character of a class, and then a match of what follows. -/
theorem IsClass.seq_iff (hr : IsClass r p) :
    (seq r b).Matches s ↔ ∃ c y, s = c :: y ∧ p c = true ∧ b.Matches y := by
  constructor
  · rintro ⟨x, y, rfl, hx, hy⟩
    obtain ⟨c, rfl, hc⟩ := (hr x).mp hx
    exact ⟨c, y, rfl, hc, hy⟩
  · rintro ⟨c, y, rfl, hc, hy⟩
    exact ⟨[c], y, rfl, (hr [c]).mpr ⟨c, rfl, hc⟩, hy⟩

theorem IsClass.seq_cons_iff (hr : IsClass r p) :
    (seq r b).Matches (c :: s) ↔ p c = true ∧ b.Matches s := by
  rw [hr.seq_iff]
  constructor
  · rintro ⟨_, _, hs, hc, hy⟩
    cases hs
    exact ⟨hc, hy⟩
  · rintro ⟨hc, hs⟩
    exact ⟨c, s, rfl, hc, hs⟩

/-- A class any number of times matches the texts whose characters are all of it. -/
theorem IsClass.many_iff (hr : IsClass r p) : (many r).Matches s ↔ ∀ c ∈ s, p c = true := by
  constructor
  · rintro ⟨parts, rfl, hparts⟩ c hc
    obtain ⟨x, hx, hcx⟩ := List.mem_flatten.mp hc
    obtain ⟨d, rfl, hd⟩ := (hr x).mp (hparts x hx)
    rw [List.mem_singleton.mp hcx]
    exact hd
  · intro hs
    refine ⟨s.map ([·]), ?_, fun x hx => ?_⟩
    · induction s with
      | nil => rfl
      | cons c s ih =>
        rw [List.map_cons, List.flatten_cons, ← ih fun d hd => hs d (List.mem_cons_of_mem c hd)]
        rfl
    · obtain ⟨c, hc, rfl⟩ := List.mem_map.mp hx
      exact (hr [c]).mpr ⟨c, rfl, hs c hc⟩

end

/-! ## Longest matches -/

/-- **The longest match** at the front of a text has `n` characters. -/
structure Longest (r : Pattern) (cs : List Char) (n : Nat) : Prop where
  matches_take : r.Matches (cs.take n)
  length_le : ∀ s, s <+: cs → r.Matches s → s.length ≤ n

section
variable {a b r : Pattern} {p : Char → Bool} {c : Char} {cs : List Char} {m n : Nat}

/-- **One longest match after another**, if nothing that follows a shorter match of the first
can begin a match of the second. -/
theorem Longest.seq (ha : Longest a cs n) (hb : Longest b (cs.drop n) m)
    (hstop : ∀ x d rest, cs = x ++ d :: rest → a.Matches x → x.length < n →
      ∀ y, ¬b.Matches (d :: y)) : Longest (seq a b) cs (n + m) where
  matches_take := ⟨cs.take n, (cs.drop n).take m, List.take_add, ha.matches_take, hb.matches_take⟩
  length_le := by
    rintro s ⟨rest, hrest⟩ ⟨x, y, rfl, hx, hy⟩
    rw [List.append_assoc] at hrest
    have hle : x.length ≤ n := ha.length_le x ⟨y ++ rest, hrest⟩ hx
    rw [List.length_append]
    by_cases hlt : x.length < n
    · -- After a shorter match of the first, the second can match nothing only.
      cases y with
      | nil =>
        rw [List.length_nil]
        omega
      | cons d y => exact absurd hy (hstop x d (y ++ rest) hrest.symm hx hlt y)
    · have heq : x.length = n := by omega
      have hy : y.length ≤ m := by
        refine hb.length_le y ⟨rest, ?_⟩ hy
        rw [← hrest, ← heq, List.drop_left]
      omega

theorem Longest.opt (h : Longest a cs n) : Longest (opt a) cs n where
  matches_take := .inr h.matches_take
  length_le := by
    rintro s hs (rfl | hmatch)
    · exact Nat.zero_le n
    · exact h.length_le s hs hmatch

/-- What may be left out is, if it cannot be found. -/
theorem longest_opt_zero (h : ∀ s, s <+: cs → ¬a.Matches s) : Longest (.opt a) cs 0 where
  matches_take := .inl rfl
  length_le := by
    rintro s hs (rfl | hmatch)
    · exact Nat.zero_le 0
    · exact absurd hmatch (h s hs)

/-- The first character is of the class, and the longest match goes on after it. -/
theorem IsClass.longest_seq (hr : IsClass r p) (hc : p c = true) (h : Longest b cs n) :
    Longest (seq r b) (c :: cs) (n + 1) where
  matches_take := by
    rw [List.take_succ_cons, hr.seq_cons_iff]
    exact ⟨hc, h.matches_take⟩
  length_le := by
    rintro s ⟨rest, hrest⟩ hmatch
    obtain ⟨d, y, rfl, -, hy⟩ := hr.seq_iff.mp hmatch
    obtain ⟨-, hcs⟩ := List.cons.inj hrest
    exact Nat.succ_le_succ (h.length_le y ⟨rest, hcs⟩ hy)

theorem IsClass.not_seq_front (hr : IsClass r p) (hcs : ∀ c ∈ cs.head?, p c = false) :
    ∀ s, s <+: cs → ¬(Pattern.seq r b).Matches s := by
  rintro s ⟨rest, rfl⟩ hmatch
  obtain ⟨c, y, rfl, hc, -⟩ := hr.seq_iff.mp hmatch
  rw [hcs c rfl] at hc
  cases hc

theorem length_le_runLength {s : List Char} (hfront : s <+: cs) (hs : ∀ d ∈ s, p d = true) :
    s.length ≤ Scan.runLength p cs := by
  obtain ⟨rest, rfl⟩ := hfront
  rw [Scan.runLength, List.takeWhile_append_of_pos hs, List.length_append]
  exact Nat.le_add_right _ _

/-- The longest run of a class. -/
theorem IsClass.longest_many (hr : IsClass r p) : Longest (many r) cs (Scan.runLength p cs) where
  matches_take := by
    rw [Scan.take_runLength, hr.many_iff]
    exact List.all_eq_true.mp List.all_takeWhile
  length_le := fun _ hfront hmatch => length_le_runLength hfront (hr.many_iff.mp hmatch)

/-- A run of a class, and then the longest match of what cannot begin with the class. -/
theorem IsClass.longest_many_seq (hr : IsClass r p)
    (hb : Longest b (cs.drop (Scan.runLength p cs)) m)
    (hfirst : ∀ d y, b.Matches (d :: y) → p d = false) :
    Longest (seq (many r) b) cs (Scan.runLength p cs + m) := by
  refine hr.longest_many.seq hb ?_
  rintro x d rest rfl hx hlt y hy
  -- A run that could have gone on is followed by a character of the class.
  have hrun : Scan.runLength p (x ++ d :: rest) = x.length := by
    refine Scan.runLength_append (hr.many_iff.mp hx) fun e he => ?_
    cases he
    exact hfirst d y hy
  omega

end

/-! ## The patterns of numbers -/

@[simp] theorem inRanges_nil (c : Char) : inRanges [] c = false := rfl

@[simp] theorem inRanges_cons (lo hi : Char) (ranges : List (Char × Char)) (c : Char) :
    inRanges ((lo, hi) :: ranges) c = ((lo ≤ c && c ≤ hi) || inRanges ranges c) := rfl

/-- A range of one character. -/
theorem le_and_le_self (a c : Char) : (decide (a ≤ c) && decide (c ≤ a)) = decide (c = a) := by
  by_cases h : c = a
  · subst h
    simp
  · have hne : ¬(a ≤ c ∧ c ≤ a) := fun hle => h (Char.le_antisymm hle.2 hle.1)
    simpa [h] using hne

/-- A certain character. -/
def char (c : Char) : Pattern := one [(c, c)]

/-- A digit: `[0-9]`. -/
def digit : Pattern := one [('0', '9')]

/-- A digit or an underscore: `[0-9_]`. -/
def digitPart : Pattern := one [('0', '9'), ('_', '_')]

/-- An exponent: `[eE][+-]?[0-9_]*`. -/
def exponent : Pattern :=
  seq (one [('e', 'e'), ('E', 'E')]) (seq (opt (one [('+', '+'), ('-', '-')])) (many digitPart))

/-- A fraction: `\.[0-9_]*`. -/
def fraction : Pattern := seq (char '.') (many digitPart)

/-- What follows the first digit of a number: `[0-9_]*(\.[0-9_]*)?([eE][+-]?[0-9_]*)?`. -/
def decimalRest : Pattern := seq (many digitPart) (seq (opt fraction) (opt exponent))

/-- A number that begins with a digit: `[0-9][0-9_]*(\.[0-9_]*)?([eE][+-]?[0-9_]*)?`. -/
def decimal : Pattern := seq digit decimalRest

/-- What follows the point and the first digit of a number: `[0-9_]*([eE][+-]?[0-9_]*)?`. -/
def pointRest : Pattern := seq (many digitPart) (opt exponent)

/-- A number that begins with a point: `\.[0-9][0-9_]*([eE][+-]?[0-9_]*)?`. -/
def point : Pattern := seq (char '.') (seq digit pointRest)

/-- A number with a radix: `0[xXoObB][0-9A-Fa-f_]*`. -/
def radix : Pattern :=
  seq (char '0') (seq (one [('x', 'x'), ('X', 'X'), ('o', 'o'), ('O', 'O'), ('b', 'b'), ('B', 'B')])
    (many (one [('0', '9'), ('A', 'F'), ('a', 'f'), ('_', '_')])))

theorem isClass_char (a : Char) : IsClass (char a) (· = a) :=
  isClass_one fun c => by simp [le_and_le_self]

theorem char_matches_iff {a : Char} {s : List Char} : (char a).Matches s ↔ s = [a] := by
  rw [isClass_char a s]
  simp

theorem seq_char_iff {a : Char} {b : Pattern} {s : List Char} :
    (seq (char a) b).Matches s ↔ ∃ y, s = a :: y ∧ b.Matches y := by
  rw [(isClass_char a).seq_iff]
  simp

theorem isClass_digit : IsClass digit Char.isDigit :=
  isClass_one fun c => by
    rw [inRanges_cons, inRanges_nil, Bool.or_false]
    rfl

theorem isClass_digitPart : IsClass digitPart Scan.isDigitPart :=
  isClass_one fun c => by
    simp only [inRanges_cons, inRanges_nil, Bool.or_false, le_and_le_self]
    rfl

theorem isClass_exponentMark : IsClass (one [('e', 'e'), ('E', 'E')]) Scan.isExponentMark :=
  isClass_one fun c => by simp [le_and_le_self, Scan.isExponentMark]

theorem isClass_sign : IsClass (one [('+', '+'), ('-', '-')]) Scan.isSign :=
  isClass_one fun c => by simp [le_and_le_self, Scan.isSign]

theorem isClass_radixMark :
    IsClass (one [('x', 'x'), ('X', 'X'), ('o', 'o'), ('O', 'O'), ('b', 'b'), ('B', 'B')])
      Scan.isRadixMark :=
  isClass_one fun c => by simp [le_and_le_self, Scan.isRadixMark, Bool.or_assoc]

theorem isClass_radixPart :
    IsClass (one [('0', '9'), ('A', 'F'), ('a', 'f'), ('_', '_')]) Scan.isRadixPart :=
  isClass_one fun c => by
    simp only [inRanges_cons, inRanges_nil, Bool.or_false, le_and_le_self, Scan.isRadixPart,
      Scan.isDigitPart]
    change (c.isDigit || _) = _
    ac_rfl

theorem isDigitPart_of_isExponentMark {c : Char} (h : Scan.isExponentMark c = true) :
    Scan.isDigitPart c = false := by
  simp only [Scan.isExponentMark, Bool.or_eq_true, decide_eq_true_eq] at h
  rcases h with rfl | rfl <;> rfl

theorem isDigitPart_of_isSign {c : Char} (h : Scan.isSign c = true) :
    Scan.isDigitPart c = false := by
  simp only [Scan.isSign, Bool.or_eq_true, decide_eq_true_eq] at h
  rcases h with rfl | rfl <;> rfl

theorem isExponentMark_of_opt_exponent {d : Char} {y : List Char}
    (h : (opt exponent).Matches (d :: y)) : Scan.isExponentMark d = true := by
  rcases h with h | h
  · cases h
  · exact (isClass_exponentMark.seq_cons_iff.mp h).1

/-- What an exponent has after its mark: `[+-]?[0-9_]*`. -/
theorem longest_signed {s : Char} {ds : List Char} (hs : Scan.isSign s = true) :
    Longest (seq (opt (one [('+', '+'), ('-', '-')])) (many digitPart)) (s :: ds)
      (1 + Scan.runLength Scan.isDigitPart ds) := by
  have hopt : Longest (opt (one [('+', '+'), ('-', '-')])) (s :: ds) 1 :=
    { matches_take := .inr ((isClass_sign [s]).mpr ⟨s, rfl, hs⟩)
      length_le := by
        rintro x - (rfl | hx)
        · exact Nat.zero_le 1
        · obtain ⟨c, rfl, -⟩ := (isClass_sign x).mp hx
          exact Nat.le_refl 1 }
  refine hopt.seq isClass_digitPart.longest_many ?_
  intro x d rest hcs _ hlt y hy
  obtain rfl : x = [] := List.length_eq_zero_iff.mp (by omega)
  cases hcs
  have hdigit := isClass_digitPart.many_iff.mp hy s List.mem_cons_self
  rw [isDigitPart_of_isSign hs] at hdigit
  cases hdigit

theorem longest_unsigned {cs : List Char} (hcs : ∀ s ∈ cs.head?, Scan.isSign s = false) :
    Longest (seq (opt (one [('+', '+'), ('-', '-')])) (many digitPart)) cs
      (Scan.runLength Scan.isDigitPart cs) := by
  have hopt : Longest (opt (one [('+', '+'), ('-', '-')])) cs 0 := by
    refine longest_opt_zero ?_
    rintro x ⟨rest, rfl⟩ hx
    obtain ⟨c, rfl, hc⟩ := (isClass_sign x).mp hx
    rw [hcs c rfl] at hc
    cases hc
  rw [← Nat.zero_add (Scan.runLength _ _)]
  refine hopt.seq isClass_digitPart.longest_many ?_
  intro x d rest _ _ hlt
  exact absurd hlt (Nat.not_lt_zero _)

/-- **The longest exponent**, or none. -/
theorem longest_exponent (cs : List Char) : Longest (opt exponent) cs (Scan.exponentLength cs) := by
  fun_cases Scan.exponentLength cs with
  | case1 => exact longest_opt_zero (isClass_exponentMark.not_seq_front fun c hc => by cases hc)
  | case2 m hm =>
    exact (isClass_exponentMark.longest_seq hm (longest_unsigned fun c hc => by cases hc)).opt
  | case3 m hm s ds hs =>
    have hlength : 2 + Scan.runLength Scan.isDigitPart ds =
        1 + Scan.runLength Scan.isDigitPart ds + 1 := by omega
    rw [hlength]
    exact (isClass_exponentMark.longest_seq hm (longest_signed hs)).opt
  | case4 m hm s ds hs =>
    rw [Nat.add_comm]
    refine (isClass_exponentMark.longest_seq hm (longest_unsigned fun c hc => ?_)).opt
    cases hc
    simpa using hs
  | case5 m cs hm =>
    refine longest_opt_zero (isClass_exponentMark.not_seq_front fun c hc => ?_)
    cases hc
    simpa using hm

/-- **The longest fraction**, or none. -/
theorem longest_fraction (cs : List Char) : Longest (opt fraction) cs (Scan.fractionLength cs) := by
  fun_cases Scan.fractionLength cs with
  | case1 cs =>
    rw [Nat.add_comm]
    exact ((isClass_char '.').longest_seq (decide_eq_true rfl) isClass_digitPart.longest_many).opt
  | case2 cs hcs =>
    refine longest_opt_zero ((isClass_char '.').not_seq_front fun c hc => ?_)
    refine decide_eq_false ?_
    rintro rfl
    obtain ⟨rest, hrest⟩ := List.head?_eq_some_iff.mp hc
    exact hcs rest hrest

/-- A fraction ends before an exponent: one that could go on is not followed by its mark. -/
theorem fractionLength_append {x rest : List Char} {d : Char} (hx : (opt fraction).Matches x)
    (hd : Scan.isExponentMark d = true) : Scan.fractionLength (x ++ d :: rest) = x.length := by
  rcases hx with rfl | hx
  · rw [List.nil_append, Scan.fractionLength]
    · rfl
    · intro cs hcs
      cases hcs
      cases hd
  · obtain ⟨z, rfl, hz⟩ := seq_char_iff.mp hx
    have hrun : Scan.runLength Scan.isDigitPart (z ++ d :: rest) = z.length := by
      refine Scan.runLength_append (isClass_digitPart.many_iff.mp hz) fun e he => ?_
      cases he
      exact isDigitPart_of_isExponentMark hd
    rw [List.cons_append, Scan.fractionLength, hrun, List.length_cons, Nat.add_comm]

/-- **The longest number after its first digit.** -/
theorem longest_decimalRest (cs : List Char) :
    Longest decimalRest cs (Scan.decimalLength cs) := by
  rw [Scan.decimalLength, ← List.drop_drop, Nat.add_assoc]
  refine isClass_digitPart.longest_many_seq ((longest_fraction _).seq (longest_exponent _) ?_) ?_
  · -- No exponent follows a fraction that could go on.
    intro x d rest hcs hx hlt y hy
    rw [hcs, fractionLength_append hx (isExponentMark_of_opt_exponent hy)] at hlt
    exact absurd hlt (Nat.lt_irrefl _)
  · -- Neither a fraction nor an exponent begins with a digit.
    rintro d y ⟨x, z, hxz, rfl | hx, hz⟩
    · rw [List.nil_append] at hxz
      subst hxz
      exact isDigitPart_of_isExponentMark (isExponentMark_of_opt_exponent hz)
    · obtain ⟨x, rfl, -⟩ := seq_char_iff.mp hx
      cases hxz
      rfl

/-- **The longest number after its point and first digit.** -/
theorem longest_pointRest (cs : List Char) : Longest pointRest cs (Scan.pointLength cs) := by
  refine isClass_digitPart.longest_many_seq (longest_exponent _) ?_
  intro d y hy
  exact isDigitPart_of_isExponentMark (isExponentMark_of_opt_exponent hy)

end Pattern

end ArithWat
