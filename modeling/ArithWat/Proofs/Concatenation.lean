import ArithWat.Proofs.Grammar.Balance
import ArithWat.Proofs.Grammar.Relocation
import ArithWat.Proofs.Parsing
import ArithWat.Proofs.Relocation
import ArithWat.Proofs.Restart

/-!
# Scripts concatenate

A script that has a program can be continued on the next line.  The rest is scanned,
derived and read as a script of its own: the programs are appended, and an error of the
rest is the error of the whole, moved along (`Script.parseTree_continue`).

For the first script nothing moves, but it is now read as a part of a longer text.
`Span.clip` is the change of spans that shows that this makes no difference.
-/

namespace ArithWat

namespace Grammar
variable {limit : Nat}

/-! ## Statements one after another -/

/-- **After a script and a separator comes a script of its own.** -/
theorem IsScript.script_append {ls rest : List Lexeme} {ts : List (Tree NodeKind)} {l : Lexeme}
    (h : IsScript ls ts) (hlimit : ∀ t ∈ ts, KeepsTo limit t) (hl : l.token.isSeparator = true) :
    script limit (ls ++ l :: rest) = (script limit rest).bimap id (ts ++ ·) := by
  induction h using IsScript.induction with
  | blank hseps =>
    rw [script_append_separators hseps, script_cons_separator hl]
    cases script limit rest with
    | error e => rfl
    | ok ts => rfl
  | @more seps ls rest' t ts hseps hstmt hbegins hscript ih =>
    rw [List.forall_mem_cons] at hlimit
    have hbegins' : BeginsWith Token.isSeparator (rest' ++ l :: rest) := by
      cases rest' with
      | nil => exact beginsWith_cons.mpr hl
      | cons l' rest' => exact hbegins
    rw [List.append_assoc, List.append_assoc, script_append_separators hseps,
      hstmt.script_append hlimit.1 hbegins', ih hlimit.2]
    cases script limit rest with
    | error e => rfl
    | ok ts => rfl

end Grammar

open Text Grammar

/-! ## The first script -/

/-- The span with its stop put far away if it lies past the bound. -/
def Span.clip (bound far : Nat) (s : Span) : Span :=
  ⟨s.start, if s.stop ≤ bound then s.stop else far⟩

theorem Span.respectsCover_clip (bound far : Nat) : RespectsCover (clip bound far) :=
  fun _ _ => rfl

theorem Span.clip_of_le {bound : Nat} {s : Span} (h : s.stop ≤ bound) (far : Nat) :
    s.clip bound far = s := by
  rw [clip, if_pos h]

/-- A clipped span has the same text when the script goes on. -/
theorem Span.text_clip (source more : List Char) {far : Nat}
    (hfar : byteSize (source ++ more) < far) (s : Span) :
    (s.clip (byteSize source) far).text (source ++ more) = s.text source := by
  by_cases hstop : s.stop ≤ byteSize source
  · rw [clip_of_le hstop, text, slice?_append_left hstop, text]
  · rw [clip, if_neg hstop, text, text, slice?_eq_none_of_lt hfar,
      slice?_eq_none_of_lt (Nat.not_le.mp hstop)]

/-- **The statements of a script say the same when the script goes on.** -/
theorem Reading.mapM_stmt_append {source : List Char} {ls : List Lexeme}
    {ts : List (Tree NodeKind)} {p : Program} (hls : ∀ l ∈ ls, l.span.stop ≤ byteSize source)
    (hscript : script maxNesting ls = .ok ts) (h : ts.mapM (stmt source) = .ok p)
    (more : List Char) : ts.mapM (stmt (source ++ more)) = .ok p := by
  -- A clip leaves the lexemes as they are, so it leaves the trees and the program.
  let far := byteSize (source ++ more) + 1
  let f := Span.clip (byteSize source) far
  have hclip : ls.map (·.mapSpan f) = ls := by
    refine (List.map_congr_left fun l hl => ?_).trans (List.map_id ls)
    exact congrArg (Lexeme.mk l.token l.text) (Span.clip_of_le (hls l hl) far)
  have hts : ts.map (·.mapSpans f) = ts := by
    have hmap : script maxNesting (ls.map (·.mapSpan f)) =
        (script maxNesting ls).bimap (·.mapSpan f) (List.map (·.mapSpans f)) :=
      script_mapSpan (Span.respectsCover_clip (byteSize source) far) ls
    rw [hclip, hscript] at hmap
    exact (Except.ok.inj hmap).symm
  have hp : p.mapSpans f = p := by
    have hfar : byteSize (source ++ []) < far := by
      rw [List.append_nil]
      exact Nat.lt_succ_of_le (by rw [byteSize_append]; exact Nat.le_add_right _ _)
    have hread := mapM_stmt_mapSpans (Span.text_clip source [] hfar) ts
    rw [hts, List.append_nil, h] at hread
    exact (Except.ok.inj hread).symm
  have hread := mapM_stmt_mapSpans (Span.text_clip source more (Nat.lt_succ_self _)) ts
  rwa [hts, h, Except.bimap_ok, hp] at hread

/-! ## The whole -/

theorem Span.respectsCover_shift (bytes : Nat) : RespectsCover (shift bytes) :=
  fun _ _ => rfl

/-- The report of a failure moves with its span; the end of the script moves as well. -/
theorem Grammar.Failure.report_append (e : Failure) (cs rest : List Char) :
    (e.mapSpan (Span.shift (byteSize (cs ++ ['\n'])))).report ((cs ++ ['\n']) ++ rest) =
      (e.report rest).shift (byteSize (cs ++ ['\n'])) (cs.count '\n' + 1) := by
  obtain ⟨fault, span⟩ := e
  cases span with
  | none =>
    have hend : Span.mk (byteSize (cs ++ ['\n'] ++ rest)) (byteSize (cs ++ ['\n'] ++ rest)) =
        Span.shift (byteSize (cs ++ ['\n'])) ⟨byteSize rest, byteSize rest⟩ := by
      rw [Span.shift, byteSize_append _ rest, Nat.add_comm]
    exact (congrArg (fault.report _) hend).trans (Fault.report_append fault cs rest _)
  | some span => exact Fault.report_append fault cs rest span

/-- **What follows a script on the next line is a script of its own**, moved along. -/
theorem Script.parseTree_continue {a : List Char} {p : Program} (h : parseTree a = .ok p)
    (b : List Char) :
    parseTree ((a ++ ['\n']) ++ b) =
      (parseTree b).bimap (·.shift (byteSize (a ++ ['\n'])) (a.count '\n' + 1))
        fun q => p ++ q.mapSpans (·.shift (byteSize (a ++ ['\n']))) := by
  obtain ⟨ls, ts, hscan, hscript, hkeeps, hread⟩ := parseTree_eq_ok_iff.mp h
  rw [parseTree_eq_bind, parseTree_eq_bind b, Scan.lexemes_append_newline hscan]
  refine Except.mapError_bimap_bind (fun _ => rfl) fun rs => ?_
  -- The first script leaves no parenthesis open, so its line feed separates the two.
  have hdepth : Lexeme.depthAfter 0 ls = 0 := by
    rw [← Lexeme.depthAfter_significant 0 0, hscript.depthAfter_eq]
  rw [Lexeme.significant_append_newline hdepth rfl, Lexeme.significant_mapSpan,
    hscript.script_append hkeeps rfl, script_mapSpan (Span.respectsCover_shift _),
    Except.bimap_bimap]
  refine Except.mapError_bimap_bind
    (fun e => congrArg CompileError.parse (e.report_append a b)) fun us => ?_
  have hstop : ∀ l ∈ Lexeme.significant 0 ls, l.span.stop ≤ byteSize a := fun l hl =>
    (Scan.genuine_of_significant hscan l hl).stop_le
  have hfirst := Reading.mapM_stmt_append hstop (script_eq_ok_iff.mpr ⟨hscript, hkeeps⟩) hread
    (['\n'] ++ b)
  have hrest := Reading.mapM_stmt_mapSpans (Span.text_append (a ++ ['\n']) b) us
  rw [← List.append_assoc] at hfirst
  rw [Function.comp_apply, List.mapM_append, hfirst, Except.ok_bind, hrest]
  cases us.mapM (Reading.stmt b) with
  | error e =>
    exact congrArg (fun r => Except.error (CompileError.parse r))
      (e.fault.report_append a b e.span)
  | ok q => rfl

/-- **Scripts concatenate.**  If a script has a program and another follows on the next
line, the two have the programs of both one after the other, or the error of the second;
spans and positions of the second move by the bytes, its lines by the lines before it. -/
theorem Script.parseTree_append {a : List Char} {p : Program} (ha : parseTree a = .ok p)
    (b : List Char) :
    (∀ q, parseTree b = .ok q →
      parseTree (a ++ '\n' :: b) = .ok (p ++ q.mapSpans (·.shift (byteSize a + 1)))) ∧
    ∀ e, parseTree b = .error e →
      parseTree (a ++ '\n' :: b) = .error (e.shift (byteSize a + 1) (a.count '\n' + 1)) := by
  have hcontinue := parseTree_continue ha b
  rw [byteSize_newline, ← List.append_cons] at hcontinue
  constructor
  · intro q hq
    rw [hcontinue, hq, Except.bimap_ok]
  · intro e he
    rw [hcontinue, he, Except.bimap_error]

/-- The first script has a line feed that is layout, a character of two bytes, and a comment
that ends in a backslash. -/
theorem Script.parseTree_append_comment :
    let a := "x = pow(2,\n3) # é\\".toList
    parseTree a = .ok [.define "x" (.call2 .pow (.num 2) (.num 3))] ∧
    parseTree (a ++ '\n' :: "y = x".toList) =
      .ok [.define "x" (.call2 .pow (.num 2) (.num 3)), .define "y" (.ref "x" ⟨24, 25⟩)] ∧
    parseTree (a ++ '\n' :: "\n y $".toList) = .error (.lexical ⟨24, ⟨4, 4⟩, '$', "y $"⟩) ∧
    parseTree (a ++ '\n' :: "pow(y".toList) =
      .error (.parse ⟨.grammar, ⟨25, 25⟩, ⟨3, 6⟩, "", "expected ')', found end of input"⟩) := by
  intro a
  have ha : parseTree a = .ok [.define "x" (.call2 .pow (.num 2) (.num 3))] := by decide +kernel
  have hdefine : parseTree "y = x".toList = .ok [.define "y" (.ref "x" ⟨4, 5⟩)] := by
    decide +kernel
  have hstray : parseTree "\n y $".toList = .error (.lexical ⟨4, ⟨2, 4⟩, '$', "y $"⟩) := by
    decide +kernel
  have hopen : parseTree "pow(y".toList =
      .error (.parse ⟨.grammar, ⟨5, 5⟩, ⟨1, 6⟩, "", "expected ')', found end of input"⟩) := by
    decide +kernel
  exact ⟨ha, (parseTree_append ha _).1 _ hdefine, (parseTree_append ha _).2 _ hstray,
    (parseTree_append ha _).2 _ hopen⟩

end ArithWat
