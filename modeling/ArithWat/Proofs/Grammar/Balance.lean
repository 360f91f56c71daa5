import ArithWat.Proofs.Grammar.Derivation

/-!
# Line feeds and parentheses

Which line feeds are layout depends on the number of parentheses that are open before
them, and on nothing else (`Lexeme.significant_append`).  A derivation closes every
parenthesis that it opens, so what follows it is looked at as if the derivation were not
there (`IsScript.depthAfter_eq`).
-/

namespace ArithWat

/-- The number of open parentheses after a token, from the number before it. -/
def Token.depthAfter (depth : Nat) : Token → Nat
  | .openParen => depth + 1
  | .closeParen => depth - 1
  | _ => depth

namespace Lexeme

/-- The number of open parentheses after some lexemes, from the number before them. -/
def depthAfter (depth : Nat) (ls : List Lexeme) : Nat :=
  ls.foldl (fun d l => l.token.depthAfter d) depth

@[simp] theorem depthAfter_nil (depth : Nat) : depthAfter depth [] = depth := rfl

@[simp] theorem depthAfter_cons (depth : Nat) (l : Lexeme) (ls : List Lexeme) :
    depthAfter depth (l :: ls) = depthAfter (l.token.depthAfter depth) ls := rfl

@[simp] theorem depthAfter_append (depth : Nat) (ls rs : List Lexeme) :
    depthAfter depth (ls ++ rs) = depthAfter (depthAfter depth ls) rs :=
  List.foldl_append

theorem significant_cons (depth : Nat) (l : Lexeme) (ls : List Lexeme) :
    significant depth (l :: ls) =
      (if l.token = .newline ∧ depth ≠ 0 then [] else [l]) ++
        significant (l.token.depthAfter depth) ls := by
  rw [significant]
  cases l.token with
  | newline =>
    by_cases hdepth : depth = 0
    · simp [hdepth, Token.depthAfter]
    · simp [hdepth, Token.depthAfter]
  | _ => rfl

/-- **What is significant after some lexemes depends on the depth after them.** -/
theorem significant_append (depth : Nat) (ls rs : List Lexeme) :
    significant depth (ls ++ rs) =
      significant depth ls ++ significant (depthAfter depth ls) rs := by
  induction ls generalizing depth with
  | nil => rfl
  | cons l ls ih =>
    rw [List.cons_append, significant_cons, significant_cons, ih, List.append_assoc]
    rfl

/-- Dropping layout does not change the depth. -/
theorem depthAfter_significant (depth depth' : Nat) (ls : List Lexeme) :
    depthAfter depth (significant depth' ls) = depthAfter depth ls := by
  induction ls generalizing depth depth' with
  | nil => rfl
  | cons l ls ih =>
    rw [significant_cons, depthAfter_append, depthAfter_cons, ih]
    split
    · rename_i hlayout
      rw [hlayout.1]
      rfl
    · rfl

/-- A line feed outside of parentheses is significant, and what follows it is looked at by
itself. -/
theorem significant_append_newline {ls : List Lexeme} {l : Lexeme} (hdepth : depthAfter 0 ls = 0)
    (hl : l.token = .newline) (rs : List Lexeme) :
    significant 0 (ls ++ l :: rs) = significant 0 ls ++ l :: significant 0 rs := by
  rw [significant_append, hdepth, significant_cons, hl, if_neg (by simp)]
  rfl

/-- Without line feeds, everything is significant. -/
theorem significant_eq_self {depth : Nat} {ls : List Lexeme}
    (h : ∀ l ∈ ls, l.token ≠ .newline) : significant depth ls = ls := by
  induction ls generalizing depth with
  | nil => rfl
  | cons l ls ih =>
    rw [List.forall_mem_cons] at h
    rw [significant_cons, if_neg (fun hl => h.1 hl.1), ih h.2]
    rfl

end Lexeme

namespace Grammar
open Lexeme

/-- A lexeme that is no parenthesis leaves the depth as it is. -/
theorem depthAfter_of_isAdditive {t : Token} (h : t.isAdditive = true) (depth : Nat) :
    t.depthAfter depth = depth := by
  revert h
  cases t <;> simp [Token.isAdditive, Token.depthAfter]

theorem depthAfter_of_isMultiplicative {t : Token} (h : t.isMultiplicative = true)
    (depth : Nat) : t.depthAfter depth = depth := by
  revert h
  cases t <;> simp [Token.isMultiplicative, Token.depthAfter]

theorem depthAfter_of_isSeparator {t : Token} (h : t.isSeparator = true) (depth : Nat) :
    t.depthAfter depth = depth := by
  revert h
  cases t <;> simp [Token.isSeparator, Token.depthAfter]

mutual

/-- **An expression closes the parentheses that it opens.** -/
theorem IsSum.depthAfter_eq {ls t} : IsSum ls t → ∀ depth, depthAfter depth ls = depth
  | .product h, depth => h.depthAfter_eq depth
  | .more hl hop hr, depth => by
    rw [depthAfter_append, hl.depthAfter_eq, depthAfter_cons,
      depthAfter_of_isAdditive (Token.isAdditive_iff.mpr hop), hr.depthAfter_eq]

theorem IsProduct.depthAfter_eq {ls t} : IsProduct ls t → ∀ depth, depthAfter depth ls = depth
  | .operand h, depth => h.depthAfter_eq depth
  | .more hl hop hr, depth => by
    rw [depthAfter_append, hl.depthAfter_eq, depthAfter_cons,
      depthAfter_of_isMultiplicative (Token.isMultiplicative_iff.mpr hop), hr.depthAfter_eq]

theorem IsOperand.depthAfter_eq {ls t} : IsOperand ls t → ∀ depth, depthAfter depth ls = depth
  | .signed hop h, depth => by
    rw [depthAfter_cons, depthAfter_of_isAdditive (Token.isAdditive_iff.mpr hop), h.depthAfter_eq]
  | .applied h, depth => h.depthAfter_eq depth

theorem IsApplied.depthAfter_eq {ls t} : IsApplied ls t → ∀ depth, depthAfter depth ls = depth
  | .atom h, depth => h.depthAfter_eq depth
  | .call h hargs, depth => by rw [depthAfter_append, h.depthAfter_eq, hargs.depthAfter_eq]

theorem IsAtom.depthAfter_eq {ls t} : IsAtom ls t → ∀ depth, depthAfter depth ls = depth
  | .number h, depth => by rw [depthAfter_cons, h]; rfl
  | .name h, depth => by rw [depthAfter_cons, h]; rfl
  | .group ho h hc, depth => by
    rw [depthAfter_cons, depthAfter_append, h.depthAfter_eq, depthAfter_cons, ho, hc]
    rfl

theorem IsArgList.depthAfter_eq {ls t} : IsArgList ls t → ∀ depth, depthAfter depth ls = depth
  | .parens ho h hc, depth => by
    rw [depthAfter_cons, depthAfter_append, h.depthAfter_eq, depthAfter_cons, ho, hc]
    rfl

theorem AreArguments.depthAfter_eq {ls ts} :
    AreArguments ls ts → ∀ depth, depthAfter depth ls = depth
  | .none, _ => rfl
  | .last h, depth => h.depthAfter_eq depth
  | .more h hcomma hs, depth => by
    rw [depthAfter_append, h.depthAfter_eq, depthAfter_cons, hcomma, hs.depthAfter_eq]
    rfl

end

theorem IsStatement.depthAfter_eq {ls t} (h : IsStatement ls t) (depth : Nat) :
    depthAfter depth ls = depth := by
  cases h with
  | assign hname hassign h =>
    rw [depthAfter_cons, depthAfter_cons, hname, hassign]
    exact h.depthAfter_eq depth
  | expression h => exact h.depthAfter_eq depth

theorem depthAfter_separators {ls : List Lexeme} (h : ∀ l ∈ ls, l.token.isSeparator = true)
    (depth : Nat) : depthAfter depth ls = depth := by
  induction ls with
  | nil => rfl
  | cons l ls ih =>
    rw [List.forall_mem_cons] at h
    rw [depthAfter_cons, depthAfter_of_isSeparator h.1, ih h.2]

/-- **A script closes the parentheses that it opens.** -/
theorem IsScript.depthAfter_eq {ls ts} (h : IsScript ls ts) (depth : Nat) :
    depthAfter depth ls = depth := by
  induction h using IsScript.induction with
  | blank hseps => exact depthAfter_separators hseps depth
  | more hseps hstmt _ _ ih =>
    rw [depthAfter_append, depthAfter_append, depthAfter_separators hseps, hstmt.depthAfter_eq, ih]

/-- No lexeme of a statement is a line feed. -/
theorem IsStatement.token_ne_newline {ls t} (h : IsStatement ls t) :
    ∀ l ∈ ls, l.token ≠ .newline := by
  have hinner : ∀ {ls t}, IsSum ls t → ∀ l ∈ ls, l.token ≠ .newline := by
    intro ls t h l hl hnewline
    have := h.isInner l hl
    rw [hnewline] at this
    cases this
  cases h with
  | assign hname hassign h =>
    simp only [List.forall_mem_cons]
    exact ⟨by simp [hname], by simp [hassign], hinner h⟩
  | expression h => exact hinner h

end Grammar

end ArithWat
