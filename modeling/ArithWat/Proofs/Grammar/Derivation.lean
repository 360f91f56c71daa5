import ArithWat.Tree.Grammar

/-!
# Derivations

The grammar as a relation between lexemes and trees, without a parser in it:

```text
script     = sep* (statement (sep+ statement)*)? sep*
statement  = name '=' sum | sum
sum        = product (('+' | '-') product)*
product    = operand (('*' | '/' | '//' | '%') operand)*
operand    = ('+' | '-') operand | applied
applied    = atom arglist*
atom       = number | name | '(' sum ')'
arglist    = '(' (sum (',' sum)* ','?)? ')'
```

`IsSum ls t` says that the lexemes `ls`, all of them, are a sum and that `t` is the
tree of it, and so on for the other symbols.  A repetition is grouped to the left, so
a sum is a product, or a sum, an operator and a product.  The relation knows no limit
on the number of levels and no order in which lexemes are looked at, and its rules name
the tokens one by one.  The classes of tokens that the parser goes by are the same
(`IsSum.add`, `IsProduct.mul`, `IsOperand.sign`, `IsScript.induction`).

The rest of the module says which lexemes can stand where in a derivation: the first
one decides between the symbols (`IsSum.head`), and no lexeme of an expression is an
equals sign or a separator (`IsSum.isInner`).
-/

namespace ArithWat.Grammar

mutual

/-- The sums. -/
inductive IsSum : List Lexeme → Tree NodeKind → Prop
  | product {ls t} : IsProduct ls t → IsSum ls t
  | more {ls rs op left right} : IsSum ls left → op.token = .plus ∨ op.token = .minus →
      IsProduct rs right →
      IsSum (ls ++ op :: rs) (.spanning .binaryExpression left [leaf .arithOp op, right])

/-- The products. -/
inductive IsProduct : List Lexeme → Tree NodeKind → Prop
  | operand {ls t} : IsOperand ls t → IsProduct ls t
  | more {ls rs op left right} : IsProduct ls left →
      op.token = .star ∨ op.token = .slash ∨ op.token = .doubleSlash ∨ op.token = .percent →
      IsOperand rs right →
      IsProduct (ls ++ op :: rs) (.spanning .binaryExpression left [leaf .arithOp op, right])

/-- The operands. -/
inductive IsOperand : List Lexeme → Tree NodeKind → Prop
  | signed {ls op t} : op.token = .plus ∨ op.token = .minus → IsOperand ls t →
      IsOperand (op :: ls) (.spanning .unaryExpression (leaf .arithOp op) [t])
  | applied {ls t} : IsApplied ls t → IsOperand ls t

/-- The atoms followed by argument lists. -/
inductive IsApplied : List Lexeme → Tree NodeKind → Prop
  | atom {ls t} : IsAtom ls t → IsApplied ls t
  | call {ls rs callee args} : IsApplied ls callee → IsArgList rs args →
      IsApplied (ls ++ rs) (.spanning .callExpression callee [args])

/-- The atoms. -/
inductive IsAtom : List Lexeme → Tree NodeKind → Prop
  | number {l} : l.token = .number → IsAtom [l] (leaf .number l)
  | name {l} : l.token = .name → IsAtom [l] (leaf .variableName l)
  | group {ls l l' t} : l.token = .openParen → IsSum ls t → l'.token = .closeParen →
      IsAtom (l :: (ls ++ [l']))
        (.spanning .parenthesizedExpression (leaf .openParen l) [t, leaf .closeParen l'])

/-- The argument lists. -/
inductive IsArgList : List Lexeme → Tree NodeKind → Prop
  | parens {ls l l' ts} : l.token = .openParen → AreArguments ls ts → l'.token = .closeParen →
      IsArgList (l :: (ls ++ [l']))
        (.spanning .argList (leaf .openParen l) (ts ++ [leaf .closeParen l']))

/-- What stands between the parentheses of an argument list. -/
inductive AreArguments : List Lexeme → List (Tree NodeKind) → Prop
  | none : AreArguments [] []
  | last {ls t} : IsSum ls t → AreArguments ls [t]
  | more {ls rs l t ts} : IsSum ls t → l.token = .comma → AreArguments rs ts →
      AreArguments (ls ++ l :: rs) (t :: leaf .comma l :: ts)

end

/-- The statements. -/
inductive IsStatement : List Lexeme → Tree NodeKind → Prop
  | assign {ls l l' t} : l.token = .name → l'.token = .assign → IsSum ls t →
      IsStatement (l :: l' :: ls)
        (.spanning .assignStatement (leaf .variableName l) [leaf .assignOp l', t])
  | expression {ls t} : IsSum ls t → IsStatement ls (.spanning .expressionStatement t [])

/-- **The scripts.**  A separator follows each statement, unless it is the last lexeme. -/
inductive IsScript : List Lexeme → List (Tree NodeKind) → Prop
  | blank {seps} : (∀ l ∈ seps, l.token = .newline ∨ l.token = .semicolon) → IsScript seps []
  | more {seps ls rest t ts} : (∀ l ∈ seps, l.token = .newline ∨ l.token = .semicolon) →
      IsStatement ls t → (∀ l ∈ rest.head?, l.token = .newline ∨ l.token = .semicolon) →
      IsScript rest ts → IsScript (seps ++ (ls ++ rest)) (t :: ts)

/-! ## The rules in terms of classes of tokens -/

theorem IsSum.add {ls rs op left right} (hl : IsSum ls left) (hop : op.token.isAdditive = true)
    (hr : IsProduct rs right) :
    IsSum (ls ++ op :: rs) (.spanning .binaryExpression left [leaf .arithOp op, right]) :=
  .more hl (Token.isAdditive_iff.mp hop) hr

theorem IsProduct.mul {ls rs op left right} (hl : IsProduct ls left)
    (hop : op.token.isMultiplicative = true) (hr : IsOperand rs right) :
    IsProduct (ls ++ op :: rs) (.spanning .binaryExpression left [leaf .arithOp op, right]) :=
  .more hl (Token.isMultiplicative_iff.mp hop) hr

theorem IsOperand.sign {ls op t} (hop : op.token.isAdditive = true) (h : IsOperand ls t) :
    IsOperand (op :: ls) (.spanning .unaryExpression (leaf .arithOp op) [t]) :=
  .signed (Token.isAdditive_iff.mp hop) h

/-- A list of lexemes that is empty or begins with a token of the class `p`. -/
def BeginsWith (p : Token → Bool) (ls : List Lexeme) : Prop := ∀ l ∈ ls.head?, p l.token = true

theorem beginsWith_cons {p : Token → Bool} {l : Lexeme} {ls : List Lexeme} :
    BeginsWith p (l :: ls) ↔ p l.token = true := by
  simp [BeginsWith]

namespace IsScript

theorem of_separators {seps : List Lexeme} (h : ∀ l ∈ seps, l.token.isSeparator = true) :
    IsScript seps [] :=
  .blank fun l hl => Token.isSeparator_iff.mp (h l hl)

theorem statement {seps ls rest t ts} (hseps : ∀ l ∈ seps, l.token.isSeparator = true)
    (hstmt : IsStatement ls t) (hbegins : BeginsWith Token.isSeparator rest)
    (hrest : IsScript rest ts) : IsScript (seps ++ (ls ++ rest)) (t :: ts) :=
  .more (fun l hl => Token.isSeparator_iff.mp (hseps l hl)) hstmt
    (fun l hl => Token.isSeparator_iff.mp (hbegins l hl)) hrest

/-- Induction on the statements of a script. -/
@[elab_as_elim] theorem induction {motive : ∀ ls ts, IsScript ls ts → Prop}
    (blank : ∀ {seps} (hseps : ∀ l ∈ seps, l.token.isSeparator = true),
      motive seps [] (of_separators hseps))
    (more : ∀ {seps ls rest t ts} (hseps : ∀ l ∈ seps, l.token.isSeparator = true)
      (hstmt : IsStatement ls t) (hbegins : BeginsWith Token.isSeparator rest)
      (hrest : IsScript rest ts), motive rest ts hrest →
      motive (seps ++ (ls ++ rest)) (t :: ts) (statement hseps hstmt hbegins hrest))
    {ls ts} (h : IsScript ls ts) : motive ls ts h := by
  induction h with
  | blank hseps => exact blank fun l hl => Token.isSeparator_iff.mpr (hseps l hl)
  | more hseps hstmt hbegins hrest ih =>
    exact more (fun l hl => Token.isSeparator_iff.mpr (hseps l hl)) hstmt
      (fun l hl => Token.isSeparator_iff.mpr (hbegins l hl)) hrest ih

/-- A separator may stand before a script. -/
theorem cons_separator {ls ts} {l : Lexeme} (h : IsScript ls ts)
    (hl : l.token.isSeparator = true) : IsScript (l :: ls) ts := by
  have hsep := Token.isSeparator_iff.mp hl
  cases h with
  | blank hseps => exact .blank (List.forall_mem_cons.mpr ⟨hsep, hseps⟩)
  | @more seps ls rest t ts hseps hstmt hbegins hrest =>
    have hscript : IsScript ((l :: seps) ++ (ls ++ rest)) (t :: ts) :=
      .more (List.forall_mem_cons.mpr ⟨hsep, hseps⟩) hstmt hbegins hrest
    exact hscript

end IsScript

/-! ## The lexemes of a derivation -/

/-- The tokens that an expression can begin with. -/
def opensSum : Token → Bool
  | .plus | .minus | .number | .name | .openParen => true
  | _ => false

/-- The tokens that an atom can begin with. -/
def opensAtom : Token → Bool
  | .number | .name | .openParen => true
  | _ => false

theorem opensSum_of_isAdditive {t : Token} (h : t.isAdditive = true) : opensSum t = true := by
  revert h
  cases t <;> decide

theorem opensSum_of_opensAtom {t : Token} (h : opensAtom t = true) : opensSum t = true := by
  revert h
  cases t <;> decide

theorem isAdditive_of_opensAtom {t : Token} (h : opensAtom t = true) : t.isAdditive = false := by
  revert h
  cases t <;> decide

theorem isAdditive_of_isMultiplicative {t : Token} (h : t.isMultiplicative = true) :
    t.isAdditive = false := by
  revert h
  cases t <;> decide

theorem IsAtom.head {ls t} : IsAtom ls t → ∃ l ls', ls = l :: ls' ∧ opensAtom l.token = true
  | .number h => ⟨_, _, rfl, by rw [h]; rfl⟩
  | .name h => ⟨_, _, rfl, by rw [h]; rfl⟩
  | .group h _ _ => ⟨_, _, rfl, by rw [h]; rfl⟩

theorem IsApplied.head {ls t} : IsApplied ls t → ∃ l ls', ls = l :: ls' ∧ opensAtom l.token = true
  | .atom h => h.head
  | .call h _ => by
    obtain ⟨l, ls', rfl, hl⟩ := h.head
    exact ⟨l, _, rfl, hl⟩

theorem IsOperand.head {ls t} : IsOperand ls t → ∃ l ls', ls = l :: ls' ∧ opensSum l.token = true
  | .signed h _ => ⟨_, _, rfl, opensSum_of_isAdditive (Token.isAdditive_iff.mpr h)⟩
  | .applied h => by
    obtain ⟨l, ls', rfl, hl⟩ := h.head
    exact ⟨l, ls', rfl, opensSum_of_opensAtom hl⟩

theorem IsProduct.head {ls t} : IsProduct ls t → ∃ l ls', ls = l :: ls' ∧ opensSum l.token = true
  | .operand h => h.head
  | .more h _ _ => by
    obtain ⟨l, ls', rfl, hl⟩ := h.head
    exact ⟨l, _, rfl, hl⟩

/-- An expression begins with a sign, a number, a name or an opening parenthesis. -/
theorem IsSum.head {ls t} : IsSum ls t → ∃ l ls', ls = l :: ls' ∧ opensSum l.token = true
  | .product h => h.head
  | .more h _ _ => by
    obtain ⟨l, ls', rfl, hl⟩ := h.head
    exact ⟨l, _, rfl, hl⟩

/-- The tokens that can stand in an expression: all but the equals sign and the
separators. -/
def isInner : Token → Bool
  | .assign | .semicolon | .newline => false
  | _ => true

theorem isInner_of_isAdditive {t : Token} (h : t.isAdditive = true) : isInner t = true := by
  revert h
  cases t <;> decide

theorem isInner_of_isMultiplicative {t : Token} (h : t.isMultiplicative = true) :
    isInner t = true := by
  revert h
  cases t <;> decide

mutual

/-- No lexeme of an expression is an equals sign or a separator. -/
theorem IsSum.isInner {ls t} : IsSum ls t → ∀ l ∈ ls, Grammar.isInner l.token = true
  | .product h => h.isInner
  | .more hl hop hr => by
    simp only [List.forall_mem_append, List.forall_mem_cons]
    exact ⟨hl.isInner, isInner_of_isAdditive (Token.isAdditive_iff.mpr hop), hr.isInner⟩

theorem IsProduct.isInner {ls t} : IsProduct ls t → ∀ l ∈ ls, Grammar.isInner l.token = true
  | .operand h => h.isInner
  | .more hl hop hr => by
    simp only [List.forall_mem_append, List.forall_mem_cons]
    exact ⟨hl.isInner, isInner_of_isMultiplicative (Token.isMultiplicative_iff.mpr hop), hr.isInner⟩

theorem IsOperand.isInner {ls t} : IsOperand ls t → ∀ l ∈ ls, Grammar.isInner l.token = true
  | .signed hop h =>
    List.forall_mem_cons.mpr ⟨isInner_of_isAdditive (Token.isAdditive_iff.mpr hop), h.isInner⟩
  | .applied h => h.isInner

theorem IsApplied.isInner {ls t} : IsApplied ls t → ∀ l ∈ ls, Grammar.isInner l.token = true
  | .atom h => h.isInner
  | .call h hargs => List.forall_mem_append.mpr ⟨h.isInner, hargs.isInner⟩

theorem IsAtom.isInner {ls t} : IsAtom ls t → ∀ l ∈ ls, Grammar.isInner l.token = true
  | .number h => by simp [h, Grammar.isInner]
  | .name h => by simp [h, Grammar.isInner]
  | .group ho h hc => by
    simp only [List.forall_mem_append, List.forall_mem_cons]
    exact ⟨by rw [ho]; rfl, h.isInner, by rw [hc]; rfl, List.forall_mem_nil _⟩

theorem IsArgList.isInner {ls t} : IsArgList ls t → ∀ l ∈ ls, Grammar.isInner l.token = true
  | .parens ho h hc => by
    simp only [List.forall_mem_append, List.forall_mem_cons]
    exact ⟨by rw [ho]; rfl, h.isInner, by rw [hc]; rfl, List.forall_mem_nil _⟩

theorem AreArguments.isInner {ls ts} :
    AreArguments ls ts → ∀ l ∈ ls, Grammar.isInner l.token = true
  | .none => nofun
  | .last h => h.isInner
  | .more h hcomma hs => by
    simp only [List.forall_mem_append, List.forall_mem_cons]
    exact ⟨h.isInner, by rw [hcomma]; rfl, hs.isInner⟩

end

end ArithWat.Grammar
