import ArithWat.Proofs.Pattern

/-!
# Tilings by longest match

Each token has patterns, and so has layout (`PieceKind.patterns`).  A text is *tiled* if it is
a sequence of tokens, layout and stray characters such that at each point no pattern matches
more than what is taken there, and a stray character stands where none matches anything
(`Tiles`).  The scan tiles a text, and no other items do (`tiles_iff_eq_scan`): it finds the
longest match at each point although it decides on the first character or two (`munch`).

Between the patterns and `munch` stands `Fits`, which says the same as the patterns by what the
first character is.
-/

namespace ArithWat

open Pattern

/-- **The patterns of a token.** -/
def Token.patterns : Token → List Pattern
  | .name =>
    [seq (one [('A', 'Z'), ('a', 'z'), ('_', '_')])
      (many (one [('A', 'Z'), ('a', 'z'), ('0', '9'), ('_', '_')]))]
  | .number => [decimal, point, radix]
  | .assign => [char '=']
  | .plus => [char '+']
  | .minus => [char '-']
  | .star => [char '*']
  | .slash => [char '/']
  | .doubleSlash => [seq (char '/') (char '/')]
  | .percent => [char '%']
  | .openParen => [char '(']
  | .closeParen => [char ')']
  | .comma => [char ',']
  | .semicolon => [char ';']
  | .newline => [char '\n']

namespace Scan

/-- A blank within a line: `[ \t\r\f]`. -/
def blank : Pattern := one [(' ', ' '), ('\t', '\t'), ('\r', '\r'), ('\x0c', '\x0c')]

/-- **The patterns of a piece.**  Layout is blanks, a comment or a line continuation:
`[ \t\r\f]+`, `#[^\n]*` or `\\\r?\n`. -/
def PieceKind.patterns : PieceKind → List Pattern
  | .token t => t.patterns
  | .layout =>
    [seq blank (many blank), seq (char '#') (many (other [('\n', '\n')])),
      seq (char '\\') (seq (opt (char '\r')) (char '\n'))]
  | .stray => []

/-- A text that a pattern of the kind matches. -/
def PieceKind.Matches (kind : PieceKind) (text : List Char) : Prop :=
  ∃ r ∈ kind.patterns, r.Matches text

/-- No pattern matches more than `n` characters at the front of a text. -/
def NoLonger (cs : List Char) (n : Nat) : Prop :=
  ∀ (kind : PieceKind) (text : List Char), text <+: cs → kind.Matches text → text.length ≤ n

/-- **The items that tile a text** which stands at byte `offset`.  A token or a piece of layout
is a longest match, and a stray character stands where there is no match. -/
inductive Tiles : Nat → List Char → List Item → Prop where
  | nil {offset : Nat} : Tiles offset [] []
  | lexeme {offset : Nat} {t : Token} {text rest : List Char} {items : List Item}
      (hmatches : (PieceKind.token t).Matches text) (hlongest : NoLonger (text ++ rest) text.length)
      (hrest : Tiles (offset + Text.byteSize text) rest items) :
      Tiles offset (text ++ rest)
        (.lexeme ⟨t, String.ofList text, ⟨offset, offset + Text.byteSize text⟩⟩ :: items)
  | layout {offset : Nat} {text rest : List Char} {items : List Item}
      (hmatches : PieceKind.layout.Matches text) (hlongest : NoLonger (text ++ rest) text.length)
      (hrest : Tiles (offset + Text.byteSize text) rest items) : Tiles offset (text ++ rest) items
  | stray {offset : Nat} {c : Char} {rest : List Char} {items : List Item}
      (hnone : NoLonger (c :: rest) 0) (hrest : Tiles (offset + Text.byteSize [c]) rest items) :
      Tiles offset (c :: rest) (.stray offset c :: items)

/-! ## What the first character begins -/

/-- The texts `c :: s` that are pieces of a kind, told apart by `c`. -/
inductive Fits : PieceKind → Char → List Char → Prop where
  | blanks {c : Char} {s : List Char} (hc : isSpace c = true) (hs : ∀ d ∈ s, isSpace d = true) :
      Fits .layout c s
  | comment {s : List Char} (hs : ∀ d ∈ s, d ≠ '\n') : Fits .layout '#' s
  | continuation : Fits .layout '\\' ['\n']
  | continuationReturn : Fits .layout '\\' ['\r', '\n']
  | name {c : Char} {s : List Char} (hc : isNameStart c = true)
      (hs : ∀ d ∈ s, isNamePart d = true) : Fits (.token .name) c s
  | decimal {c : Char} {s : List Char} (hc : c.isDigit = true) (hs : decimalRest.Matches s) :
      Fits (.token .number) c s
  | radix {m : Char} {s : List Char} (hm : isRadixMark m = true)
      (hs : ∀ d ∈ s, isRadixPart d = true) : Fits (.token .number) '0' (m :: s)
  | point {d : Char} {s : List Char} (hd : d.isDigit = true) (hs : pointRest.Matches s) :
      Fits (.token .number) '.' (d :: s)
  | doubleSlash : Fits (.token .doubleSlash) '/' ['/']
  | symbol {c : Char} {t : Token} (h : symbol? c = some t) : Fits (.token t) c []

theorem isClass_blank : IsClass blank isSpace :=
  isClass_one fun c => by simp [le_and_le_self, isSpace, Bool.or_assoc]

theorem inRanges_letters (c : Char) (ranges : List (Char × Char)) :
    inRanges (('A', 'Z') :: ('a', 'z') :: ranges) c = (c.isAlpha || inRanges ranges c) := by
  rw [inRanges_cons, inRanges_cons, isAlpha_eq, Bool.decide_and, Bool.or_assoc]
  rfl

theorem isClass_nameStart : IsClass (one [('A', 'Z'), ('a', 'z'), ('_', '_')]) isNameStart :=
  isClass_one fun c => by
    rw [inRanges_letters, inRanges_cons, inRanges_nil, Bool.or_false, le_and_le_self]
    rfl

theorem isClass_namePart :
    IsClass (one [('A', 'Z'), ('a', 'z'), ('0', '9'), ('_', '_')]) isNamePart :=
  isClass_one fun c => by
    rw [inRanges_letters, inRanges_cons, inRanges_cons, inRanges_nil, Bool.or_false, le_and_le_self,
      ← Bool.or_assoc]
    rfl

theorem isClass_notNewline : IsClass (other [('\n', '\n')]) (· ≠ '\n') :=
  isClass_other fun c => by simp [le_and_le_self]

theorem exists_fits_layout {text : List Char} (h : PieceKind.layout.Matches text) :
    ∃ c s, text = c :: s ∧ Fits .layout c s := by
  obtain ⟨r, hr, hmatch⟩ := h
  simp only [PieceKind.patterns, List.mem_cons, List.not_mem_nil, or_false] at hr
  rcases hr with rfl | rfl | rfl
  · obtain ⟨c, s, rfl, hc, hs⟩ := isClass_blank.seq_iff.mp hmatch
    exact ⟨c, s, rfl, .blanks hc (isClass_blank.many_iff.mp hs)⟩
  · obtain ⟨s, rfl, hs⟩ := seq_char_iff.mp hmatch
    refine ⟨'#', s, rfl, .comment fun d hd => ?_⟩
    exact of_decide_eq_true (isClass_notNewline.many_iff.mp hs d hd)
  · obtain ⟨s, rfl, x, y, rfl, hx, hy⟩ := seq_char_iff.mp hmatch
    obtain rfl := char_matches_iff.mp hy
    rcases hx with rfl | hx
    · exact ⟨'\\', ['\n'], rfl, .continuation⟩
    · obtain rfl := char_matches_iff.mp hx
      exact ⟨'\\', ['\r', '\n'], rfl, .continuationReturn⟩

theorem exists_fits_number {text : List Char} (h : (PieceKind.token .number).Matches text) :
    ∃ c s, text = c :: s ∧ Fits (.token .number) c s := by
  obtain ⟨r, hr, hmatch⟩ := h
  simp only [PieceKind.patterns, Token.patterns, List.mem_cons, List.not_mem_nil, or_false] at hr
  rcases hr with rfl | rfl | rfl
  · obtain ⟨c, s, rfl, hc, hs⟩ := isClass_digit.seq_iff.mp hmatch
    exact ⟨c, s, rfl, .decimal hc hs⟩
  · obtain ⟨y, rfl, hy⟩ := seq_char_iff.mp hmatch
    obtain ⟨d, s, rfl, hd, hs⟩ := isClass_digit.seq_iff.mp hy
    exact ⟨'.', d :: s, rfl, .point hd hs⟩
  · obtain ⟨y, rfl, hy⟩ := seq_char_iff.mp hmatch
    obtain ⟨m, s, rfl, hm, hs⟩ := isClass_radixMark.seq_iff.mp hy
    exact ⟨'0', m :: s, rfl, .radix hm (isClass_radixPart.many_iff.mp hs)⟩

/-- A token with a symbol of its own is that symbol. -/
theorem exists_fits_symbol {c : Char} {t : Token} {text : List Char} (ht : symbol? c = some t)
    (hpatterns : t.patterns = [char c]) (h : (PieceKind.token t).Matches text) :
    ∃ c s, text = c :: s ∧ Fits (.token t) c s := by
  obtain ⟨r, hr, hmatch⟩ := h
  rw [PieceKind.patterns, hpatterns, List.mem_singleton] at hr
  subst hr
  obtain rfl := char_matches_iff.mp hmatch
  exact ⟨c, [], rfl, .symbol ht⟩

/-- **A match of a pattern is told by its first character.** -/
theorem exists_fits {kind : PieceKind} {text : List Char} (h : kind.Matches text) :
    ∃ c s, text = c :: s ∧ Fits kind c s := by
  cases kind with
  | layout => exact exists_fits_layout h
  | stray =>
    obtain ⟨r, hr, -⟩ := h
    cases hr
  | token t =>
    cases t with
    | number => exact exists_fits_number h
    | name =>
      obtain ⟨r, hr, hmatch⟩ := h
      obtain rfl := List.mem_singleton.mp hr
      obtain ⟨c, s, rfl, hc, hs⟩ := isClass_nameStart.seq_iff.mp hmatch
      exact ⟨c, s, rfl, .name hc (isClass_namePart.many_iff.mp hs)⟩
    | doubleSlash =>
      obtain ⟨r, hr, hmatch⟩ := h
      obtain rfl := List.mem_singleton.mp hr
      obtain ⟨s, rfl, hs⟩ := seq_char_iff.mp hmatch
      obtain rfl := char_matches_iff.mp hs
      exact ⟨'/', ['/'], rfl, .doubleSlash⟩
    | assign => exact exists_fits_symbol (c := '=') rfl rfl h
    | plus => exact exists_fits_symbol (c := '+') rfl rfl h
    | minus => exact exists_fits_symbol (c := '-') rfl rfl h
    | star => exact exists_fits_symbol (c := '*') rfl rfl h
    | slash => exact exists_fits_symbol (c := '/') rfl rfl h
    | percent => exact exists_fits_symbol (c := '%') rfl rfl h
    | openParen => exact exists_fits_symbol (c := '(') rfl rfl h
    | closeParen => exact exists_fits_symbol (c := ')') rfl rfl h
    | comma => exact exists_fits_symbol (c := ',') rfl rfl h
    | semicolon => exact exists_fits_symbol (c := ';') rfl rfl h
    | newline => exact exists_fits_symbol (c := '\n') rfl rfl h

theorem patterns_of_symbol? {c : Char} {t : Token} (h : symbol? c = some t) :
    t.patterns = [char c] := by
  unfold symbol? at h
  split at h <;> cases h <;> rfl

theorem matches_of_fits {kind : PieceKind} {c : Char} {s : List Char} (h : Fits kind c s) :
    kind.Matches (c :: s) := by
  cases h with
  | blanks hc hs =>
    exact ⟨_, .head _, isClass_blank.seq_cons_iff.mpr ⟨hc, isClass_blank.many_iff.mpr hs⟩⟩
  | comment hs =>
    refine ⟨_, .tail _ (.head _), seq_char_iff.mpr ⟨s, rfl, isClass_notNewline.many_iff.mpr ?_⟩⟩
    exact fun d hd => decide_eq_true (hs d hd)
  | continuation =>
    refine ⟨_, .tail _ (.tail _ (.head _)), seq_char_iff.mpr ⟨_, rfl, [], ['\n'], rfl, ?_⟩⟩
    exact ⟨.inl rfl, char_matches_iff.mpr rfl⟩
  | continuationReturn =>
    refine ⟨_, .tail _ (.tail _ (.head _)), seq_char_iff.mpr ⟨_, rfl, ['\r'], ['\n'], rfl, ?_⟩⟩
    exact ⟨.inr (char_matches_iff.mpr rfl), char_matches_iff.mpr rfl⟩
  | name hc hs =>
    refine ⟨_, .head _, isClass_nameStart.seq_cons_iff.mpr ⟨hc, ?_⟩⟩
    exact isClass_namePart.many_iff.mpr hs
  | decimal hc hs => exact ⟨_, .head _, isClass_digit.seq_cons_iff.mpr ⟨hc, hs⟩⟩
  | point hd hs =>
    refine ⟨_, .tail _ (.head _), seq_char_iff.mpr ⟨_, rfl, ?_⟩⟩
    exact isClass_digit.seq_cons_iff.mpr ⟨hd, hs⟩
  | radix hm hs =>
    refine ⟨_, .tail _ (.tail _ (.head _)), seq_char_iff.mpr ⟨_, rfl, ?_⟩⟩
    exact isClass_radixMark.seq_cons_iff.mpr ⟨hm, isClass_radixPart.many_iff.mpr hs⟩
  | doubleSlash => exact ⟨_, .head _, seq_char_iff.mpr ⟨['/'], rfl, char_matches_iff.mpr rfl⟩⟩
  | symbol h =>
    refine ⟨char c, ?_, char_matches_iff.mpr rfl⟩
    rw [PieceKind.patterns, patterns_of_symbol? h]
    exact List.mem_singleton_self _

/-! ## The longest piece is a longest match -/

section
variable {kind : PieceKind} {c : Char} {s cs : List Char}

/-- After a zero that a radix mark follows there is no more of a decimal number. -/
theorem decimalLength_of_isRadixMark {m : Char} (hm : isRadixMark m = true) (ds : List Char) :
    decimalLength (m :: ds) = 0 := by
  simp only [isRadixMark, Bool.or_eq_true, decide_eq_true_eq] at hm
  rcases hm with ((((rfl | rfl) | rfl) | rfl) | rfl) | rfl <;> rfl

theorem length_le_numberLength (hs : decimalRest.Matches s) (hfront : s <+: cs) :
    s.length ≤ numberLength c cs := by
  have hle : s.length ≤ decimalLength cs := (longest_decimalRest cs).length_le s hfront hs
  fun_cases numberLength c cs with
  | case1 m ds hmark =>
    -- Here the decimal number is the zero alone, and the one with a radix is longer.
    rw [Bool.and_eq_true] at hmark
    rw [decimalLength_of_isRadixMark hmark.2] at hle
    omega
  | case2 m ds hmark => exact hle
  | case3 => exact hfront.length_le

theorem munch_eq_or_lt_of_le {n : Nat} (h : munch c cs = (kind, n)) (hle : s.length ≤ n) :
    munch c cs = (kind, s.length) ∨ s.length < (munch c cs).2 := by
  rw [h]
  by_cases heq : s.length = n
  · exact .inl (by rw [heq])
  · exact .inr (by show s.length < n; omega)

theorem munch_of_symbol? {t : Token} (h : symbol? c = some t) (hslash : c ≠ '/')
    (cs : List Char) : munch c cs = (.token t, 0) := by
  unfold symbol? at h
  split at h
  case h_5 => exact absurd rfl hslash
  case h_12 => cases h
  all_goals
    cases h
    rfl

/-- A slash is a token by itself, unless another follows. -/
theorem munch_slash (cs : List Char) :
    munch '/' cs = (.token .slash, 0) ∨ 0 < (munch '/' cs).2 := by
  by_cases hhead : cs.head? = some '/'
  · obtain ⟨ds, rfl⟩ := List.head?_eq_some_iff.mp hhead
    exact .inr Nat.one_pos
  · left
    simp [munch, hhead, isSpace, isNameStart, symbol?]

/-- **What fits is the longest piece, or shorter than it.** -/
theorem Fits.munch_eq_or_lt (h : Fits kind c s) (hfront : s <+: cs) :
    munch c cs = (kind, s.length) ∨ s.length < (munch c cs).2 := by
  cases h with
  | blanks hc hs =>
    have hmunch : munch c cs = (.layout, runLength isSpace cs) := by simp [munch, hc]
    exact munch_eq_or_lt_of_le hmunch (length_le_runLength hfront hs)
  | comment hs =>
    refine munch_eq_or_lt_of_le rfl (length_le_runLength hfront fun d hd => ?_)
    exact decide_eq_true (hs d hd)
  | continuation =>
    obtain ⟨rest, rfl⟩ := hfront
    exact .inl rfl
  | continuationReturn =>
    obtain ⟨rest, rfl⟩ := hfront
    exact .inl rfl
  | name hc hs =>
    exact munch_eq_or_lt_of_le (munch_of_isNameStart hc cs) (length_le_runLength hfront hs)
  | decimal hc hs =>
    exact munch_eq_or_lt_of_le (munch_of_isDigit hc cs) (length_le_numberLength hs hfront)
  | @radix m s hm hs =>
    obtain ⟨rest, rfl⟩ := hfront
    have hnumber : numberLength '0' (m :: (s ++ rest)) = 1 + runLength isRadixPart (s ++ rest) := by
      simp [numberLength, hm]
    have hle := length_le_runLength (List.prefix_append s rest) hs
    refine munch_eq_or_lt_of_le (munch_of_isDigit rfl _) ?_
    rw [List.cons_append, hnumber, List.length_cons]
    omega
  | @point d s hd hs =>
    obtain ⟨rest, rfl⟩ := hfront
    have hmunch : munch '.' (d :: (s ++ rest)) = (.token .number, 1 + pointLength (s ++ rest)) := by
      change (if d.isDigit then _ else _) = _
      rw [if_pos hd]
    have hle := (longest_pointRest _).length_le s (List.prefix_append s rest) hs
    refine munch_eq_or_lt_of_le hmunch ?_
    rw [List.length_cons]
    omega
  | doubleSlash =>
    obtain ⟨rest, rfl⟩ := hfront
    exact .inl rfl
  | symbol h =>
    by_cases hslash : c = '/'
    · subst hslash
      cases h
      exact munch_slash cs
    · exact .inl (munch_of_symbol? h hslash cs)

theorem fits_numberLength (hc : c.isDigit = true) :
    Fits (.token .number) c (cs.take (numberLength c cs)) := by
  fun_cases numberLength c cs with
  | case1 m ds hmark =>
    rw [Bool.and_eq_true, decide_eq_true_eq] at hmark
    obtain ⟨rfl, hm⟩ := hmark
    rw [Nat.add_comm, List.take_succ_cons, take_runLength]
    exact .radix hm (List.all_eq_true.mp List.all_takeWhile)
  | case2 m ds hmark => exact .decimal hc (longest_decimalRest _).matches_take
  | case3 => exact .decimal hc (longest_decimalRest []).matches_take

theorem fits_runLength {p : Char → Bool} (h : ∀ s, (∀ d ∈ s, p d = true) → Fits kind c s) :
    Fits kind c (cs.take (runLength p cs)) := by
  rw [take_runLength]
  exact h _ (List.all_eq_true.mp List.all_takeWhile)

/-- **The longest piece fits its kind**, or it is one stray character. -/
theorem fits_munch {n : Nat} (h : munch c cs = (kind, n)) :
    Fits kind c (cs.take n) ∨ kind = .stray ∧ n = 0 := by
  unfold munch at h
  split at h
  · rename_i hspace
    cases h
    exact .inl (fits_runLength fun s hs => .blanks hspace hs)
  split at h
  · rename_i hhash
    cases h
    subst hhash
    exact .inl (fits_runLength fun s hs => .comment fun d hd => of_decide_eq_true (hs d hd))
  split at h
  · rename_i hbackslash
    subst hbackslash
    split at h
    · cases h
      exact .inl .continuation
    · cases h
      exact .inl .continuationReturn
    · cases h
      exact .inr ⟨rfl, rfl⟩
  split at h
  · rename_i hstart
    cases h
    exact .inl (fits_runLength fun s hs => .name hstart hs)
  split at h
  · rename_i hdigit
    cases h
    exact .inl (fits_numberLength hdigit)
  split at h
  · rename_i hpoint
    subst hpoint
    split at h
    · split at h
      · rename_i d ds hdigit
        cases h
        rw [Nat.add_comm, List.take_succ_cons]
        exact .inl (.point hdigit (longest_pointRest ds).matches_take)
      · cases h
        exact .inr ⟨rfl, rfl⟩
    · cases h
      exact .inr ⟨rfl, rfl⟩
  split at h
  · rename_i hslash
    cases h
    rw [Bool.and_eq_true, decide_eq_true_eq, decide_eq_true_eq] at hslash
    obtain ⟨rfl, hhead⟩ := hslash
    obtain ⟨ds, rfl⟩ := List.head?_eq_some_iff.mp hhead
    exact .inl .doubleSlash
  · split at h
    · rename_i hsymbol
      cases h
      exact .inl (.symbol hsymbol)
    · cases h
      exact .inr ⟨rfl, rfl⟩

end

/-! ## Tilings -/

section
variable {kind : PieceKind} {c : Char} {cs text rest : List Char} {n : Nat}

theorem length_take_munch (h : munch c cs = (kind, n)) : (c :: cs.take n).length = n + 1 := by
  have hle := munch_le c cs
  rw [h] at hle
  rw [List.length_cons, List.length_take, Nat.min_eq_left hle]

/-- **No pattern matches more than the longest piece.** -/
theorem noLonger_munch (h : munch c cs = (kind, n)) : NoLonger (c :: cs) (n + 1) := by
  intro kind' text hfront hmatches
  obtain ⟨d, s, rfl, hfits⟩ := exists_fits hmatches
  obtain ⟨rfl, hs⟩ := List.cons_prefix_cons.mp hfront
  have hmunch := hfits.munch_eq_or_lt hs
  rw [h] at hmunch
  rw [List.length_cons]
  rcases hmunch with heq | hlt
  · cases heq
    exact Nat.le_refl _
  · exact Nat.succ_le_succ (Nat.le_of_lt hlt)

/-- **No pattern matches where a stray character stands.** -/
theorem noLonger_stray (h : munch c cs = (.stray, 0)) : NoLonger (c :: cs) 0 := by
  intro kind text hfront hmatches
  obtain ⟨d, s, rfl, hfits⟩ := exists_fits hmatches
  obtain ⟨rfl, hs⟩ := List.cons_prefix_cons.mp hfront
  have hmunch := hfits.munch_eq_or_lt hs
  rw [h] at hmunch
  rcases hmunch with heq | hlt
  · obtain rfl := (Prod.mk.inj heq).1
    cases hfits
  · exact absurd hlt (Nat.not_lt_zero _)

/-- If no pattern matches more than `m` characters, the longest piece has no more. -/
theorem NoLonger.munch_le {m : Nat} (h : NoLonger (c :: cs) m) (hmunch : munch c cs = (kind, n))
    (hfits : Fits kind c (cs.take n)) : n + 1 ≤ m := by
  rw [← length_take_munch hmunch]
  apply h kind
  · exact List.cons_prefix_cons.mpr ⟨rfl, List.take_prefix n cs⟩
  · exact matches_of_fits hfits

/-- **A longest match is the first piece of a text.** -/
theorem pieces_of_matches (hmatches : kind.Matches text)
    (hlongest : NoLonger (text ++ rest) text.length) :
    ∃ c s, text = c :: s ∧ pieces (text ++ rest) = ⟨kind, c, s⟩ :: pieces rest := by
  obtain ⟨c, s, rfl, hfits⟩ := exists_fits hmatches
  have hmunch : munch c (s ++ rest) = (kind, s.length) := by
    rcases hpiece : munch c (s ++ rest) with ⟨found, n⟩
    have hfound := hfits.munch_eq_or_lt (List.prefix_append s rest)
    rw [hpiece] at hfound
    rcases hfound with heq | hlt
    · exact heq
    · -- A longer piece would be a longer match.
      rcases fits_munch hpiece with hlonger | ⟨-, rfl⟩
      · have hle : n + 1 ≤ s.length + 1 := hlongest.munch_le hpiece hlonger
        exact absurd hlt (by omega)
      · exact absurd hlt (Nat.not_lt_zero _)
  refine ⟨c, s, rfl, ?_⟩
  rw [List.cons_append, pieces_cons, hmunch, List.take_left, List.drop_left]

/-- **A character with which no match begins is a stray piece.** -/
theorem pieces_of_noLonger (hnone : NoLonger (c :: cs) 0) :
    pieces (c :: cs) = ⟨.stray, c, []⟩ :: pieces cs := by
  have hmunch : munch c cs = (.stray, 0) := by
    rcases hpiece : munch c cs with ⟨found, n⟩
    rcases fits_munch hpiece with hfits | ⟨rfl, rfl⟩
    · exact absurd (hnone.munch_le hpiece hfits) (Nat.not_succ_le_zero n)
    · rfl
  rw [pieces_cons, hmunch]
  rfl

end

/-- The scan of a text tiles it. -/
theorem tiles_itemsFrom (offset : Nat) (cs : List Char) :
    Tiles offset cs (itemsFrom offset (pieces cs)) := by
  induction cs using cut_induction generalizing offset with
  | nil => exact .nil
  | cons c cs ih =>
    rcases hmunch : munch c cs with ⟨kind, n⟩
    rw [hmunch] at ih
    rw [pieces_cons, hmunch]
    rcases fits_munch hmunch with hfits | ⟨rfl, rfl⟩
    · have hsplit : c :: cs = (c :: cs.take n) ++ cs.drop n := by
        rw [List.cons_append, List.take_append_drop]
      have hlongest : NoLonger ((c :: cs.take n) ++ cs.drop n) (c :: cs.take n).length := by
        rw [← hsplit, length_take_munch hmunch]
        exact noLonger_munch hmunch
      rw [hsplit]
      cases kind with
      | token t => exact .lexeme (matches_of_fits hfits) hlongest (ih _)
      | layout => exact .layout (matches_of_fits hfits) hlongest (ih _)
      | stray => cases hfits
    · exact .stray (noLonger_stray hmunch) (ih _)

/-- **Nothing but the scan of a text tiles it.** -/
theorem Tiles.eq_itemsFrom {offset : Nat} {cs : List Char} {items : List Item}
    (h : Tiles offset cs items) : items = itemsFrom offset (pieces cs) := by
  induction h with
  | nil => rfl
  | lexeme hmatches hlongest hrest ih =>
    obtain ⟨c, s, rfl, hpieces⟩ := pieces_of_matches hmatches hlongest
    rw [hpieces, ih]
    rfl
  | layout hmatches hlongest hrest ih =>
    obtain ⟨c, s, rfl, hpieces⟩ := pieces_of_matches hmatches hlongest
    rw [hpieces, ih]
    rfl
  | stray hnone hrest ih =>
    rw [pieces_of_noLonger hnone, ih]
    rfl

/-- **The scan tiles a text by longest match**, and nothing else does. -/
theorem tiles_iff_eq_scan (source : List Char) (items : List Item) :
    Tiles 0 source items ↔ items = scan source := by
  constructor
  · exact Tiles.eq_itemsFrom
  · rintro rfl
    exact tiles_itemsFrom 0 source

-- A number takes one point only, and after a radix mark no exponent has a sign.
example : (pieces "1..5 // 0xe+5".toList).map (String.ofList ·.text) =
    ["1.", ".5", " ", "//", " ", "0xe", "+", "5"] := by
  decide

end Scan

end ArithWat
