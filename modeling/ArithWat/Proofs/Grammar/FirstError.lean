import ArithWat.Proofs.Grammar.Stopping

/-!
# Errors at the first impossible lexeme

A script that is not derivable has a first lexeme at which that is clear: what stands before it
can be continued to a script, but not with this lexeme next.  A fault of grammar is reported at
that lexeme (`Tree.isViable_of_grammar_error`).

That the lexemes before can be continued is what `Stopping` shows.  If they could be continued
with the lexeme at fault as well, the rules with enough levels would read the script that they
are continued to, for they read whatever is derivable; but they fail at the lexeme whatever
follows it.
-/

namespace ArithWat

namespace Grammar
variable {limit : Nat}

/-- Lexemes that can be continued to a script, of any number of levels. -/
def IsViable (ls : List Lexeme) : Prop := ∃ more ts, IsScript (ls ++ more) ts

/-- Where the rules stop for a reason of grammar, no script goes on with the same lexeme. -/
theorem not_isScript_of_fails {front rest : List Lexeme} {f : Failure}
    (h : ∀ rest', rest'.head? = rest.head? →
      ∀ n, limit ≤ n → script (limit + n) (front ++ rest') = .error f)
    {rest' : List Lexeme} (hhead : rest'.head? = rest.head?) (ts : List (Tree NodeKind)) :
    ¬ IsScript (front ++ rest') ts := by
  intro hscript
  -- Rules that allow as many levels as the script has would read it.
  have hread : script (limit + (limit + Tree.forestHeight ts)) (front ++ rest') = .ok ts :=
    hscript.read fun t ht => keepsTo_of_height_le (Nat.le_trans
      (Tree.forestHeight_le_iff.mp (Nat.le_refl _) t ht) (by omega))
  rw [h rest' hhead _ (Nat.le_add_right _ _)] at hread
  cases hread

/-- **A fault of grammar stands at the first impossible lexeme**, or at the end if there is
none: what stands before it is viable, and no longer with it. -/
theorem isViable_of_script_error (hlimit : 0 < limit) {ls : List Lexeme} {f : Failure}
    (h : script limit ls = .error f) (hkind : f.fault.kind = .grammar) :
    ∃ i ≤ ls.length, f.span = ls[i]?.map Lexeme.span ∧ IsViable (ls.take i) ∧
      (i < ls.length → ¬ IsViable (ls.take (i + 1))) ∧ ∀ ts, ¬ IsScript ls ts := by
  cases scriptStops_of_error hlimit h with
  | @grammar front rest fault _ hviable hsame =>
    refine ⟨front.length, by simp, ?_, ?_, ?_, not_isScript_of_fails hsame rfl⟩
    · rw [List.getElem?_append_right (Nat.le_refl _), Nat.sub_self, ← List.head?_eq_getElem?]
      rfl
    · rw [List.take_left]
      exact hviable
    · rintro hlt ⟨more, ts, hscript⟩
      rcases rest with _ | ⟨l, rest⟩
      · simp at hlt
      · rw [List.take_length_add_append, List.append_assoc] at hscript
        have hhead : (l :: more).head? = (l :: rest).head? := rfl
        exact not_isScript_of_fails hsame hhead ts hscript
  | tooDeep => cases hkind

end Grammar

/-! ## The place of a fault -/

/-- The span of the lexeme at an index, or of the end of a text of `stop` bytes. -/
def Lexeme.spanAt (stop : Nat) (ls : List Lexeme) (i : Nat) : Span :=
  (ls[i]?.map Lexeme.span).getD ⟨stop, stop⟩

theorem Lexeme.InOrder.start_spanAt_lt {stop : Nat} {ls : List Lexeme} (h : InOrder ls)
    (hstop : ∀ l ∈ ls, l.span.stop ≤ stop) {i j : Nat} (hij : i < j) (hj : j ≤ ls.length) :
    (spanAt stop ls i).start < (spanAt stop ls j).start := by
  have hi : i < ls.length := Nat.lt_of_lt_of_le hij hj
  have hlt := h.start_lt_stop ls[i] (List.getElem_mem hi)
  have hat : spanAt stop ls i = ls[i].span := by simp [spanAt, List.getElem?_eq_getElem hi]
  rw [hat]
  refine Nat.lt_of_lt_of_le hlt ?_
  rcases Nat.lt_or_eq_of_le hj with hj | rfl
  · have hat' : spanAt stop ls j = ls[j].span := by simp [spanAt, List.getElem?_eq_getElem hj]
    rw [hat']
    exact List.pairwise_iff_getElem.mp h.pairwise i j hi hj hij
  · have hat' : spanAt stop ls ls.length = ⟨stop, stop⟩ := by simp [spanAt]
    rw [hat']
    exact hstop _ (List.getElem_mem hi)

/-- **The span of a lexeme tells which lexeme it is.** -/
theorem Lexeme.InOrder.spanAt_inj {stop : Nat} {ls : List Lexeme} (h : InOrder ls)
    (hstop : ∀ l ∈ ls, l.span.stop ≤ stop) {i j : Nat} (hi : i ≤ ls.length) (hj : j ≤ ls.length)
    (heq : spanAt stop ls i = spanAt stop ls j) : i = j := by
  rcases Nat.lt_trichotomy i j with hij | hij | hij
  · exact absurd (heq ▸ h.start_spanAt_lt hstop hij hj) (Nat.lt_irrefl _)
  · exact hij
  · exact absurd (heq ▸ h.start_spanAt_lt hstop hij hi) (Nat.lt_irrefl _)

open Grammar

/-- **Faults of grammar are reported at the first impossible lexeme.**  The span of the report is
that of one of the significant lexemes, or the empty one at the end of the script.  What stands
before that place can be continued to a script, if need be one with more levels than allowed.
With the lexeme at that place nothing can, and the lexemes as they are, are no script. -/
theorem Tree.isViable_of_grammar_error {source : List Char} {ls : List Lexeme} {e : ParseError}
    (hscan : Scan.lexemes source = .ok ls) (h : Tree.ofSource source = .error (.parse e))
    (hkind : e.kind = .grammar) :
    let kept := Lexeme.significant 0 ls
    ∃ i ≤ kept.length,
      (∀ j ≤ kept.length, e.span = Lexeme.spanAt (Text.byteSize source) kept j ↔ j = i) ∧
      IsViable (kept.take i) ∧ (i < kept.length → ¬ IsViable (kept.take (i + 1))) ∧
      ∀ stmts, ¬ IsScript kept stmts := by
  intro kept
  rw [Tree.ofSource, hscan, Except.mapError_ok, Except.ok_bind] at h
  obtain h | ⟨_, -, h⟩ := Except.bind_eq_error_iff.mp h
  · obtain ⟨f, hf, he⟩ := Except.mapError_eq_error_iff.mp h
    obtain rfl := CompileError.parse.inj he
    obtain ⟨i, hi, hspan, hviable⟩ := isViable_of_script_error (by decide) hf hkind
    have hat : (f.report source).span = Lexeme.spanAt (Text.byteSize source) kept i :=
      congrArg (·.getD ⟨Text.byteSize source, Text.byteSize source⟩) hspan
    refine ⟨i, hi, fun j hj => ⟨fun hj' => ?_, fun hj' => hj' ▸ hat⟩, hviable⟩
    exact (Scan.inOrder_significant hscan).spanAt_inj
      (fun l hl => (Scan.genuine_of_significant hscan l hl).stop_le) hj hi (hj'.symm.trans hat)
  · cases h

/-- A comma between parentheses that belong to no call. -/
theorem Tree.isViable_of_grammar_error_comma :
    let source := "a = (1,\n2)".toList
    let ls : List Lexeme :=
      [⟨.name, "a", ⟨0, 1⟩⟩, ⟨.assign, "=", ⟨2, 3⟩⟩, ⟨.openParen, "(", ⟨4, 5⟩⟩,
       ⟨.number, "1", ⟨5, 6⟩⟩, ⟨.comma, ",", ⟨6, 7⟩⟩, ⟨.newline, "\n", ⟨7, 8⟩⟩,
       ⟨.number, "2", ⟨8, 9⟩⟩, ⟨.closeParen, ")", ⟨9, 10⟩⟩]
    ∃ e, Scan.lexemes source = .ok ls ∧ Tree.ofSource source = .error (.parse e) ∧
      e.kind = .grammar ∧ e.span = ⟨6, 7⟩ ∧
      IsViable ((Lexeme.significant 0 ls).take 4) ∧
      ¬ IsViable ((Lexeme.significant 0 ls).take 5) := by
  intro source ls
  have hscan : Scan.lexemes source = .ok ls := by decide +kernel
  let fault : Fault := .expectedToken .closeParen .lexeme
  have htree : Tree.ofSource source = .error (.parse (fault.report source ⟨6, 7⟩)) := by
    decide +kernel
  obtain ⟨i, -, hi, hviable, hdead, -⟩ := isViable_of_grammar_error hscan htree rfl
  obtain rfl : 4 = i := (hi 4 (by decide)).mp rfl
  exact ⟨_, hscan, htree, rfl, rfl, hviable, hdead (by decide)⟩

end ArithWat
