import ArithWat.Program
import ArithWat.Proofs.Grammar.Completeness
import ArithWat.Proofs.Positions
import ArithWat.Proofs.Scanning

/-!
# The outline of a script

What is left of the significant lexemes when layout is taken away: the token and the text
of each word, with one break where separators stood between words, however many and of
whichever sort (`Lexeme.outline`).

Two lists of lexemes from two scripts run *in parallel* if what is still to come of them
has the same outline (`Lexeme.Parallel`).  Then both are at a break, or both go on with a
word that is the same in either script (`Lexeme.Parallel.cases`).  Rules that go through
the lists in parallel build trees that are *alike* (`Tree.Alike`): of the same shape and
kinds, with the same text at each leaf.  A compound tree has another text in another
layout.  That text matters in one place only, where the tree is called, and there it names
no builtin in either script, for it ends with a parenthesis (`Lexeme.Genuine.closesAt`).
-/

namespace ArithWat
open Grammar

namespace Lexeme

/-! ## Outlines -/

/-- The token and the text of each word, and `none` for a run of separators before a
word. -/
def squeeze : List Lexeme → List (Option (Token × String))
  | [] => []
  | l :: ls =>
    if l.token.isSeparator then
      match squeeze ls with
      | some w :: ws => none :: some w :: ws
      | ws => ws
    else some (l.token, l.text) :: squeeze ls

/-- **The outline of lexemes**: each run of separators is one, and there is none at either
end. -/
def outline (ls : List Lexeme) : List (Option (Token × String)) := squeeze (skipSeparators ls)

theorem squeeze_of_word {l : Lexeme} (h : l.token.isSeparator = false) (ls : List Lexeme) :
    squeeze (l :: ls) = some (l.token, l.text) :: squeeze ls := by
  simp [squeeze, h]

/-- A list at a break is not squeezed to one that begins with a word. -/
theorem exists_word_of_squeeze {ls : List Lexeme} {w : Token × String}
    {ws : List (Option (Token × String))} (h : squeeze ls = some w :: ws) :
    ∃ l us, ls = l :: us ∧ l.token.isSeparator = false ∧ (l.token, l.text) = w ∧
      squeeze us = ws := by
  rcases ls with _ | ⟨l, us⟩
  · cases h
  by_cases hl : l.token.isSeparator = true
  · -- What is squeezed behind the separator either gets a break before it or has one already.
    rw [squeeze, if_pos hl] at h
    split at h
    · cases h
    · rename_i hno
      exact absurd h (hno w ws)
  · have hword := eq_false_of_ne_true hl
    rw [squeeze_of_word hword] at h
    obtain ⟨hw, hws⟩ := List.cons.inj h
    exact ⟨l, us, rfl, hword, Option.some.inj hw, hws⟩

/-- Separators at the front only matter for the break at the front. -/
theorem outline_eq (ls : List Lexeme) : outline ls = (squeeze ls).dropWhile Option.isNone := by
  induction ls with
  | nil => rfl
  | cons l ls ih =>
    by_cases hl : l.token.isSeparator = true
    · have hskip : outline (l :: ls) = outline ls :=
        congrArg squeeze (List.dropWhile_cons_of_pos hl)
      rw [hskip, ih, squeeze, if_pos hl]
      -- The separator adds a break before a word, and nothing otherwise.
      split
      · rename_i hws
        rw [hws]
        rfl
      · rfl
    · have hskip : outline (l :: ls) = squeeze (l :: ls) :=
        congrArg squeeze (List.dropWhile_cons_of_neg hl)
      rw [hskip, squeeze_of_word (eq_false_of_ne_true hl)]
      rfl

/-! ## Lists in parallel -/

/-- A lexeme of one script and one of another that are the same word. -/
structure Twin (source source' : List Char) (l l' : Lexeme) : Prop where
  token_eq : l.token = l'.token
  text_eq : l.text = l'.text
  isWord : l.token.isSeparator = false
  genuine : l.Genuine source
  genuine' : l'.Genuine source'

/-- **Lexemes of two scripts in parallel**: the same words are to come, with breaks at the
same places. -/
structure Parallel (source source' : List Char) (ls ls' : List Lexeme) : Prop where
  squeeze_eq : squeeze ls = squeeze ls'
  genuine : ∀ l ∈ ls, l.Genuine source
  genuine' : ∀ l ∈ ls', l.Genuine source'

variable {source source' : List Char} {ls ls' : List Lexeme}

/-- The same word has the same text in either script. -/
theorem Twin.span_text_eq {l l' : Lexeme} (h : Twin source source' l l') :
    l.span.text source = l'.span.text source' := by
  rw [h.genuine.text_eq, h.genuine'.text_eq, h.text_eq]

theorem beginsWith_or_word (ls : List Lexeme) :
    BeginsWith Token.isSeparator ls ∨ ∃ l us, ls = l :: us ∧ l.token.isSeparator = false := by
  rcases ls with _ | ⟨l, us⟩
  · left
    intro l hl
    cases hl
  by_cases hl : l.token.isSeparator = true
  · left
    intro l' hl'
    cases hl'
    exact hl
  · exact .inr ⟨l, us, rfl, eq_false_of_ne_true hl⟩

/-- A list that is squeezed as one at a break is at a break. -/
theorem beginsWith_of_squeeze_eq (h : squeeze ls = squeeze ls')
    (hbreak : BeginsWith Token.isSeparator ls) : BeginsWith Token.isSeparator ls' := by
  rcases beginsWith_or_word ls' with hbreak' | ⟨l', us', rfl, hl'⟩
  · exact hbreak'
  · rw [squeeze_of_word hl'] at h
    obtain ⟨l, us, rfl, hl, -⟩ := exists_word_of_squeeze h
    rw [hbreak l rfl] at hl
    cases hl

/-- **Lists in parallel are both at a break, or go on with the same word.** -/
theorem Parallel.cases (h : Parallel source source' ls ls') :
    (BeginsWith Token.isSeparator ls ∧ BeginsWith Token.isSeparator ls') ∨
    ∃ l us l' us', ls = l :: us ∧ ls' = l' :: us' ∧ Twin source source' l l' ∧
      Parallel source source' us us' := by
  obtain ⟨hsqueeze, hgenuine, hgenuine'⟩ := h
  rcases beginsWith_or_word ls with hbreak | ⟨l, us, rfl, hl⟩
  · exact .inl ⟨hbreak, beginsWith_of_squeeze_eq hsqueeze hbreak⟩
  · rw [squeeze_of_word hl] at hsqueeze
    obtain ⟨l', us', rfl, -, hw, hus⟩ := exists_word_of_squeeze hsqueeze.symm
    rw [List.forall_mem_cons] at hgenuine hgenuine'
    obtain ⟨htoken, htext⟩ := Prod.mk.inj hw
    exact .inr ⟨l, us, l', us', rfl, rfl,
      ⟨htoken.symm, htext.symm, hl, hgenuine.1, hgenuine'.1⟩,
      ⟨hus.symm, hgenuine.2, hgenuine'.2⟩⟩

/-- Lists with one outline are in parallel once the separators at their front are gone. -/
theorem parallel_skipSeparators (h : outline ls = outline ls')
    (hgenuine : ∀ l ∈ ls, l.Genuine source) (hgenuine' : ∀ l ∈ ls', l.Genuine source') :
    Parallel source source' (skipSeparators ls) (skipSeparators ls') where
  squeeze_eq := h
  genuine l hl := hgenuine l ((List.dropWhile_sublist _).subset hl)
  genuine' l hl := hgenuine' l ((List.dropWhile_sublist _).subset hl)

theorem Parallel.skipSeparators (h : Parallel source source' ls ls') :
    Parallel source source' (skipSeparators ls) (skipSeparators ls') := by
  refine parallel_skipSeparators ?_ h.genuine h.genuine'
  rw [outline_eq, outline_eq, h.squeeze_eq]

end Lexeme

/-! ## Texts that name a builtin -/

/-- Two texts that name the same builtin, or none. -/
def SameBuiltin (name name' : String) : Prop :=
  UnaryBuiltin.ofName? name = UnaryBuiltin.ofName? name' ∧
    BinaryBuiltin.ofName? name = BinaryBuiltin.ofName? name'

/-- A place of a script where no name of a builtin ends. -/
def ClosesAt (source : List Char) (stop : Nat) : Prop :=
  ∀ span : Span, span.stop = stop →
    UnaryBuiltin.ofName? (span.text source) = none ∧
      BinaryBuiltin.ofName? (span.text source) = none

theorem SameBuiltin.of_closesAt {source source' : List Char} {span span' : Span}
    (h : ClosesAt source span.stop) (h' : ClosesAt source' span'.stop) :
    SameBuiltin (span.text source) (span'.text source') := by
  obtain ⟨hunary, hbinary⟩ := h span rfl
  obtain ⟨hunary', hbinary'⟩ := h' span' rfl
  exact ⟨hunary.trans hunary'.symm, hbinary.trans hbinary'.symm⟩

/-- A text that is empty or ends with a parenthesis names no builtin. -/
theorem ofName?_eq_none {name : String} (h : ∀ c ∈ name.toList.getLast?, c = ')') :
    UnaryBuiltin.ofName? name = none ∧ BinaryBuiltin.ofName? name = none := by
  constructor
  · rw [UnaryBuiltin.ofName?, List.find?_eq_none]
    intro f _ hf
    obtain rfl := of_decide_eq_true hf
    rcases f with _ | _ <;> exact absurd (h _ rfl) (by decide)
  · rw [BinaryBuiltin.ofName?, List.find?_eq_none]
    intro f _ hf
    obtain rfl := of_decide_eq_true hf
    rcases f with _ | _ | _ <;> exact absurd (h _ rfl) (by decide)

/-- Slices that stop at the same place are the ends of one text. -/
theorem Text.exists_append_eq_of_slice? {cs mid mid' : List Char} {start start' stop : Nat}
    (h : slice? cs start stop = some mid) (h' : slice? cs start' stop = some mid') :
    ∃ head head', head ++ mid = head' ++ mid' := by
  obtain ⟨head, rest, hcs, hstart, hstop⟩ := slice?_eq_some_iff.mp h
  obtain ⟨head', rest', hcs', hstart', hstop'⟩ := slice?_eq_some_iff.mp h'
  refine ⟨head, head', ?_⟩
  have hsize : byteSize (head ++ mid) = byteSize (head' ++ mid') := by
    rw [byteSize_append, byteSize_append]
    omega
  obtain ⟨more, hmore, -⟩ :=
    append_cancel_of_byteSize_le (hcs'.symm.trans hcs) (Nat.le_of_eq hsize.symm)
  rw [hmore, byteSize_append] at hsize
  have hnil : more = [] := byteSize_eq_zero_iff.mp (by omega)
  rw [hmore, hnil, List.append_nil]

/-- The text of a genuine lexeme is a slice of the script, unless it is empty. -/
theorem Lexeme.Genuine.slice?_eq {source : List Char} {l : Lexeme} (hl : l.Genuine source)
    {c : Char} {cs : List Char} (htext : l.text.toList = c :: cs) :
    Text.slice? source l.span.start l.span.stop = some (c :: cs) := by
  rw [← hl.text_eq, Span.text, String.toList_ofList] at htext
  cases hslice : Text.slice? source l.span.start l.span.stop with
  | none =>
    rw [hslice] at htext
    cases htext
  | some mid =>
    rw [hslice, Option.getD_some] at htext
    rw [htext]

/-- **No name of a builtin ends with a closing parenthesis.** -/
theorem Lexeme.Genuine.closesAt {source : List Char} {l : Lexeme} (hl : l.Genuine source)
    (hclose : l.token = .closeParen) : ClosesAt source l.span.stop := by
  have hspells := hl.spells
  rw [hclose] at hspells
  have hparen := hl.slice?_eq hspells
  intro span hspan
  refine ofName?_eq_none ?_
  rw [Span.text, String.toList_ofList, hspan]
  intro c hc
  cases hslice : Text.slice? source span.start l.span.stop with
  | none =>
    rw [hslice] at hc
    cases hc
  | some mid =>
    rw [hslice, Option.getD_some, Option.mem_def] at hc
    obtain ⟨head, head', heq⟩ := Text.exists_append_eq_of_slice? hslice hparen
    have hlast := congrArg List.getLast? heq
    rw [List.getLast?_append, List.getLast?_append, hc] at hlast
    exact Option.some.inj hlast

/-! ## Trees that are alike -/

namespace Tree

/-- The kinds of nodes that are words. -/
def isWord : NodeKind → Bool
  | .number | .variableName | .arithOp | .assignOp | .openParen | .closeParen | .comma => true
  | _ => false

section
variable (source source' : List Char)

mutual

/-- **Trees of two scripts are alike** if they have the same shape and the same kinds, words
have the same text in either script, and so has what is called, as far as it names a
builtin. -/
def Alike : Tree NodeKind → Tree NodeKind → Prop
  | node k s ts, node k' s' ts' =>
    k = k' ∧ (isWord k = true → s.text source = s'.text source') ∧
      (k = .callExpression → ∀ t ∈ ts.head?, ∀ t' ∈ ts'.head?,
        SameBuiltin (t.span.text source) (t'.span.text source')) ∧
      ForestAlike ts ts'

/-- Lists of trees that are alike one by one. -/
def ForestAlike : List (Tree NodeKind) → List (Tree NodeKind) → Prop
  | [], [] => True
  | t :: ts, t' :: ts' => Alike t t' ∧ ForestAlike ts ts'
  | _, _ => False

end

end

variable {source source' : List Char} {t t' : Tree NodeKind}

theorem forestAlike_iff {ts ts' : List (Tree NodeKind)} :
    ForestAlike source source' ts ts' ↔ List.Forall₂ (Alike source source') ts ts' := by
  induction ts generalizing ts' with
  | nil =>
    rcases ts' with _ | ⟨t', ts'⟩
    · simp [ForestAlike]
    · simp [ForestAlike]
  | cons t ts ih =>
    rcases ts' with _ | ⟨t', ts'⟩
    · simp [ForestAlike]
    · simp [ForestAlike, ih]

theorem Alike.kind_eq (h : Alike source source' t t') : t.kind = t'.kind := by
  cases t; cases t'
  exact h.1

theorem Alike.text_eq (h : Alike source source' t t') (hword : isWord t.kind = true) :
    t.span.text source = t'.span.text source' := by
  cases t; cases t'
  exact h.2.1 hword

theorem Alike.callee (h : Alike source source' t t') (hkind : t.kind = .callExpression)
    {u u' : Tree NodeKind} {us us' : List (Tree NodeKind)} (hu : t.children = u :: us)
    (hu' : t'.children = u' :: us') :
    SameBuiltin (u.span.text source) (u'.span.text source') := by
  cases t; cases t'
  simp only [children] at hu hu'
  exact h.2.2.1 hkind u (by rw [hu]; rfl) u' (by rw [hu']; rfl)

theorem Alike.children (h : Alike source source' t t') :
    List.Forall₂ (Alike source source') t.children t'.children := by
  cases t; cases t'
  exact forestAlike_iff.mp h.2.2.2

mutual

/-- Trees that are alike have the same number of levels. -/
theorem Alike.height_eq : {t t' : Tree NodeKind} → Alike source source' t t' →
    t.height = t'.height
  | node _ _ _, node _ _ _, h => congrArg (· + 1) (forestHeight_eq h.2.2.2)

theorem forestHeight_eq : {ts ts' : List (Tree NodeKind)} → ForestAlike source source' ts ts' →
    forestHeight ts = forestHeight ts'
  | [], [], _ => rfl
  | _ :: _, _ :: _, h => by
    rw [forestHeight, forestHeight, Alike.height_eq h.1, forestHeight_eq h.2]

end

theorem alike_leaf {l l' : Lexeme} (h : Lexeme.Twin source source' l l') (k : NodeKind) :
    Alike source source' (Grammar.leaf k l) (Grammar.leaf k l') := by
  refine ⟨rfl, fun _ => h.span_text_eq, fun _ t ht => ?_, trivial⟩
  cases ht

theorem alike_spanning {k : NodeKind} {first first' : Tree NodeKind}
    {more more' : List (Tree NodeKind)} (hk : isWord k = false)
    (hfirst : Alike source source' first first')
    (hmore : List.Forall₂ (Alike source source') more more')
    (hcall : k ≠ .callExpression ∨
      SameBuiltin (first.span.text source) (first'.span.text source')) :
    Alike source source' (spanning k first more) (spanning k first' more') := by
  refine ⟨rfl, fun hword => ?_, fun hkind u hu u' hu' => ?_,
    forestAlike_iff.mpr (.cons hfirst hmore)⟩
  · rw [hk] at hword
    cases hword
  · cases hu
    cases hu'
    exact hcall.resolve_left (absurd hkind)

/-- A node stops where its last child stops. -/
theorem stop_spanning_append {κ : Type} (k : κ) (first last : Tree κ) (more : List (Tree κ)) :
    (spanning k first (more ++ [last])).span.stop = last.span.stop := by
  have hlast : (first :: (more ++ [last])).getLastD first = last := by
    rw [List.getLastD_eq_getLast?, ← List.cons_append, List.getLast?_append]
    rfl
  rw [spanning, hlast]
  rfl

end Tree

end ArithWat
