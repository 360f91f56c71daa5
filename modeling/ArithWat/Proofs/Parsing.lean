import ArithWat.Proofs.Grammar.Completeness
import ArithWat.Proofs.Storage

/-!
# The program of a script

A script has a program exactly when it can be scanned, its significant lexemes are
derivable within the nesting limit, and the statements of the derivation can be read
(`Script.parseTree_eq_ok_iff`).  The table that the tree is stored in has disappeared from
the statement, and so has the order in which the rules of the grammar try things.

A script that is not compiled fails at one of the stages (`Script.Rejected`).
-/

namespace ArithWat
open Grammar

theorem Reading.program_script (source : List Char) (span : Span) (ts : List (Tree NodeKind)) :
    program source (.node .script span ts) = ts.mapM (stmt source) :=
  if_pos (kind?_eq_kind (.node .script span ts))

/-- **The program of a script, step by step**: its lexemes, the trees of its statements,
and what these say. -/
theorem Script.parseTree_eq_bind (source : List Char) :
    parseTree source = (do
      let ls ← (Scan.lexemes source).mapError .lexical
      let ts ← (script maxNesting (Lexeme.significant 0 ls)).mapError (.parse <| ·.report source)
      (ts.mapM (Reading.stmt source)).mapError (.parse <| ·.report source)) := by
  rw [parseTree_eq, Tree.ofSource]
  cases Scan.lexemes source with
  | error e => rfl
  | ok ls =>
    simp only [Except.mapError_ok, Except.ok_bind]
    cases script maxNesting (Lexeme.significant 0 ls) with
    | error e => rfl
    | ok ts => simp only [Except.mapError_ok, Except.ok_bind, Reading.program_script]

/-- **When a script has a program, and which.** -/
theorem Script.parseTree_eq_ok_iff {source : List Char} {p : Program} :
    parseTree source = .ok p ↔
      ∃ ls ts, Scan.lexemes source = .ok ls ∧ IsScript (Lexeme.significant 0 ls) ts ∧
        (∀ t ∈ ts, KeepsTo maxNesting t) ∧ ts.mapM (Reading.stmt source) = .ok p := by
  simp only [parseTree_eq_bind, Except.bind_eq_ok_iff, Except.mapError_eq_ok_iff,
    script_eq_ok_iff]
  constructor
  · rintro ⟨ls, hscan, ts, ⟨hscript, hkeeps⟩, hread⟩
    exact ⟨ls, ts, hscan, hscript, hkeeps, hread⟩
  · rintro ⟨ls, ts, hscan, hscript, hkeeps, hread⟩
    exact ⟨ls, hscan, ts, ⟨hscript, hkeeps⟩, hread⟩

/-! ## Rejected scripts -/

/-- **Why a script is rejected**, one case for each stage: it has a stray character, its lexemes
are not derivable within the nesting limit, a statement has no meaning, or a variable is read
before it is set. -/
inductive Script.Rejected (source : String) : CompileError → Prop
  | scanning {e} (hscan : Scan.lexemes source.toList = .error e) : Rejected source (.lexical e)
  | grammar {ls f} (hscan : Scan.lexemes source.toList = .ok ls)
      (hscript : script maxNesting (Lexeme.significant 0 ls) = .error f) :
      Rejected source (.parse (f.report source.toList))
  | reading {ls ts f} (hscan : Scan.lexemes source.toList = .ok ls)
      (hscript : IsScript (Lexeme.significant 0 ls) ts)
      (hread : ts.mapM (Reading.stmt source.toList) = .error f) :
      Rejected source (.parse (f.report source.toList))
  | scope {p e} (hparse : parse source = .ok p) (hcheck : p.check = .error e) :
      Rejected source (.reference e)

theorem Script.rejected_of_parse_error {source : String} {e : CompileError}
    (h : parse source = .error e) : Rejected source e := by
  rw [parse] at h
  split at h
  · cases h
  rw [parseTree_eq_bind] at h
  obtain h | ⟨ls, hscan, h⟩ := Except.bind_eq_error_iff.mp h
  · obtain ⟨e, hscan, rfl⟩ := Except.mapError_eq_error_iff.mp h
    exact .scanning hscan
  rw [Except.mapError_eq_ok_iff] at hscan
  obtain h | ⟨ts, hscript, h⟩ := Except.bind_eq_error_iff.mp h
  · obtain ⟨f, hscript, rfl⟩ := Except.mapError_eq_error_iff.mp h
    exact .grammar hscan hscript
  · rw [Except.mapError_eq_ok_iff, script_eq_ok_iff] at hscript
    obtain ⟨f, hread, rfl⟩ := Except.mapError_eq_error_iff.mp h
    exact .reading hscan hscript.1 hread

/-- **A script that does not compile is rejected at one of the stages.** -/
theorem Script.rejected_of_compile_error {source : String} {e : CompileError}
    (h : compile source = .error e) : Rejected source e := by
  obtain h | ⟨p, hparse, h⟩ := Except.bind_eq_error_iff.mp h
  · exact rejected_of_parse_error h
  obtain h | ⟨_, -, h⟩ := Except.bind_eq_error_iff.mp h
  · obtain ⟨e, hcheck, rfl⟩ := Except.mapError_eq_error_iff.mp h
    exact .scope hparse hcheck
  · cases h

end ArithWat
