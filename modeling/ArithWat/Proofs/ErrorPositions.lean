import ArithWat.Proofs.Flaws
import ArithWat.Proofs.Grammar.Stopping
import ArithWat.Proofs.References
import Mathlib.Data.List.Induction

/-!
# Reports point into the script

Every report of a script that does not compile says where in the script the reason is
(`Script.located_of_compile_error`): at the first stray character, at a span that goes from one
lexeme to the same or a later one and whose text and place are shown, or at the name of a
variable.

All reports of faults are treated alike.  Whether the grammar or the reading of a tree finds the
fault, the span covers some of the lexemes, or it is the empty one at the end
(`Grammar.exists_covers_of_script_error`).  From that alone it follows that the span is cut at
boundaries (`Lexeme.Covers.exists_slice?`), and so that the text is the one between them.
-/

namespace ArithWat

/-! ## Places and slices -/

namespace Text

theorem lastLine_concat (cs : List Char) (c : Char) :
    lastLine (cs ++ [c]) = if c = '\n' then [] else lastLine cs ++ [c] := by
  by_cases hc : c = '\n'
  · simp [lastLine, hc]
  · simp [lastLine, hc]

/-- The column after a text is one more than its last line has characters. -/
theorem Place.col_foldl_after (cs : List Char) :
    (cs.foldl after start).col = 1 + (lastLine cs).length := by
  induction cs using List.reverseRecOn with
  | nil => rfl
  | append_singleton cs c ih =>
    rw [List.foldl_append, List.foldl_cons, List.foldl_nil, lastLine_concat, after]
    by_cases hc : c = '\n'
    · rw [if_pos hc, if_pos hc]
      rfl
    · rw [if_neg hc, if_neg hc, ih, List.length_append]
      rfl

/-- **The place of a boundary**: the line feeds before it, and the characters since the last of
them, each counted from one. -/
theorem placeAt_append (before rest : List Char) :
    placeAt (before ++ rest) (byteSize before) =
      ⟨1 + before.count '\n', 1 + (lastLine before).length⟩ := by
  rw [placeAt_eq_foldl]
  have hline := Place.line_foldl_after Place.start before
  have hcol := Place.col_foldl_after before
  generalize before.foldl Place.after Place.start = place at hline hcol
  obtain ⟨line, col⟩ := place
  exact congrArg₂ Place.mk hline hcol

/-- From the start of one slice to the end of another there is a slice, if the one does not
start after the other ends. -/
theorem exists_slice?_of_slices {cs mid mid' : List Char} {start stop start' stop' : Nat}
    (h : slice? cs start stop = some mid) (h' : slice? cs start' stop' = some mid')
    (hle : start ≤ stop') : ∃ text, slice? cs start stop' = some text := by
  obtain ⟨head, rest, hcs, hstart, -⟩ := slice?_eq_some_iff.mp h
  obtain ⟨head', rest', hcs', hstart', hstop'⟩ := slice?_eq_some_iff.mp h'
  have hcut : head ++ (mid ++ rest) = (head' ++ mid') ++ rest' := by
    rw [← List.append_assoc, ← hcs, hcs']
  have hsize : byteSize head ≤ byteSize (head' ++ mid') := by
    rw [byteSize_append]
    omega
  -- The text is what is left of the second head and slice after the first head.
  obtain ⟨text, htext, -⟩ := append_cancel_of_byteSize_le hcut hsize
  refine ⟨text, slice?_eq_some_iff.mpr ⟨head, rest', by rw [hcs', htext], hstart, ?_⟩⟩
  have hbytes := congrArg byteSize htext
  rw [byteSize_append, byteSize_append] at hbytes
  omega

end Text

/-! ## Spans over lexemes -/

namespace Lexeme
variable {ls part : List Lexeme} {s : Span}

/-- **A covering span is cut at boundaries.** -/
theorem Covers.exists_slice? (h : Covers part s) (horder : InOrder part) {source : List Char}
    (hpart : ∀ l ∈ part, l.Genuine source) :
    ∃ text, Text.slice? source s.start s.stop = some text := by
  have hlt := h.start_lt_stop horder
  obtain ⟨first, hfirst, last, hlast, hstart, hstop⟩ := h.exists_mem
  rw [hstart, hstop] at hlt ⊢
  exact Text.exists_slice?_of_slices (hpart first hfirst).slice?_text (hpart last hlast).slice?_text
    (Nat.le_of_lt hlt)

/-- A span that starts with a lexeme and ends with the same or a later one. -/
def FromTo (ls : List Lexeme) (s : Span) : Prop :=
  ∃ (i j : Nat) (first last : Lexeme), i ≤ j ∧ ls[i]? = some first ∧ ls[j]? = some last ∧
    s = ⟨first.span.start, last.span.stop⟩

theorem exists_getElem?_of_sublist (hpart : part.Sublist ls) {first last : Lexeme}
    (hfirst : part.head? = some first) (hlast : last ∈ part) :
    ∃ i j : Nat, i ≤ j ∧ ls[i]? = some first ∧ ls[j]? = some last := by
  induction hpart with
  | slnil => cases hlast
  | cons l hpart ih =>
    obtain ⟨i, j, hij, hi, hj⟩ := ih hfirst hlast
    exact ⟨i + 1, j + 1, Nat.succ_le_succ hij, hi, hj⟩
  | cons_cons l hpart ih =>
    cases hfirst
    rcases List.mem_cons.mp hlast with rfl | hlast
    · exact ⟨0, 0, Nat.le_refl _, rfl, rfl⟩
    · obtain ⟨j, hj⟩ := List.mem_iff_getElem?.mp (hpart.subset hlast)
      exact ⟨0, j + 1, Nat.zero_le _, rfl, hj⟩

theorem Covers.fromTo (h : Covers part s) (hpart : part.Sublist ls) : FromTo ls s := by
  obtain ⟨first, hfirst, last, hlast, rfl⟩ := h
  obtain ⟨i, j, hij, hi, hj⟩ :=
    exists_getElem?_of_sublist hpart hfirst (List.mem_of_mem_getLast? hlast)
  exact ⟨i, j, first, last, hij, hi, hj, rfl⟩

end Lexeme

/-! ## Stray characters -/

namespace Scan

/-- **The first stray character of items**: before it stand lexemes only. -/
def FirstStray (items : List Item) (location : Nat) (char : Char) : Prop :=
  ∃ (ls : List Lexeme) (later : List Item),
    items = ls.map .lexeme ++ .stray location char :: later

/-- What is reported is the first stray character. -/
theorem exists_firstStray_of_mapM_error {source : List Char} {items : List Item}
    {e : LexicalError} (h : items.mapM (Item.check source) = .error e) :
    ∃ location char, FirstStray items location char ∧ e = .report source location := by
  induction items with
  | nil => cases h
  | cons item items ih =>
    rw [List.mapM_cons] at h
    cases item with
    | lexeme l =>
      obtain h | ⟨_, -, h⟩ := Except.bind_eq_error_iff.mp h
      · cases h
      obtain h | ⟨_, -, h⟩ := Except.bind_eq_error_iff.mp h
      · obtain ⟨location, char, ⟨ls, later, rfl⟩, he⟩ := ih h
        exact ⟨location, char, ⟨l :: ls, later, rfl⟩, he⟩
      · cases h
    | stray location char =>
      obtain h | ⟨_, h, -⟩ := Except.bind_eq_error_iff.mp h
      · cases h
        exact ⟨location, char, ⟨[], items, rfl⟩, rfl⟩
      · cases h

/-- A stray character stands in the text of the pieces, where its location says. -/
theorem exists_of_stray_mem {offset location : Nat} {char : Char} {ps : List Piece}
    (h : Item.stray location char ∈ itemsFrom offset ps) :
    ∃ before after, (ps.map Piece.text).flatten = before ++ char :: after ∧
      location = offset + Text.byteSize before := by
  induction ps generalizing offset with
  | nil => cases h
  | cons p ps ih =>
    have hmore : Item.stray location char ∈ itemsFrom (offset + Text.byteSize p.text) ps →
        ∃ before after, ((p :: ps).map Piece.text).flatten = before ++ char :: after ∧
          location = offset + Text.byteSize before := by
      intro h
      obtain ⟨before, after, hflatten, hlocation⟩ := ih h
      refine ⟨p.text ++ before, after, ?_, ?_⟩
      · rw [List.map_cons, List.flatten_cons, hflatten, List.append_assoc]
      · rw [hlocation, Text.byteSize_append, Nat.add_assoc]
    unfold itemsFrom at h
    split at h
    · rcases List.mem_cons.mp h with h | h
      · cases h
      · exact hmore h
    · exact hmore h
    · rcases List.mem_cons.mp h with h | h
      · cases h
        exact ⟨[], p.rest ++ (ps.map Piece.text).flatten, rfl, rfl⟩
      · exact hmore h

end Scan

/-! ## Reports -/

/-- **The report of a character points at the first stray one**, which stands in the script at
the place reported. -/
structure LexicalError.Located (source : List Char) (e : LexicalError) : Prop where
  first : Scan.FirstStray (Scan.scan source) e.location e.char
  char : ∃ before after, source = before ++ e.char :: after ∧ e.location = Text.byteSize before

/-- **The report of a fault points into the script.**  Its span is the empty one at the end, or
goes from one lexeme to the same or a later one.  Its text is what stands there, and its place
counts the line feeds before the span and the characters since the last of them. -/
structure ParseError.Located (source : List Char) (ls : List Lexeme) (e : ParseError) : Prop where
  span : e.span = ⟨Text.byteSize source, Text.byteSize source⟩ ∨ Lexeme.FromTo ls e.span
  text : ∃ before text after, source = before ++ text ++ after ∧ e.text = String.ofList text ∧
    e.span = ⟨Text.byteSize before, Text.byteSize before + Text.byteSize text⟩ ∧
    e.place = ⟨1 + before.count '\n', 1 + (Text.lastLine before).length⟩

/-- **The report of a variable points at its name.** -/
def ReferenceError.Located (ls : List Lexeme) (e : ReferenceError) : Prop :=
  ∃ l ∈ ls, l.token = .name ∧ l.text = e.name ∧ l.span = e.span

/-- **A report points into the script.**  There are lexemes, unless a character is stray. -/
def CompileError.Located (source : List Char) : CompileError → Prop
  | .lexical e => e.Located source
  | .parse e => ∃ ls, Scan.lexemes source = .ok ls ∧ e.Located source ls
  | .reference e => ∃ ls, Scan.lexemes source = .ok ls ∧ e.Located ls

section
variable {source : List Char} {ls : List Lexeme}

theorem Scan.located_of_lexemes_error {e : LexicalError} (h : lexemes source = .error e) :
    e.Located source := by
  obtain ⟨location, char, hfirst, rfl⟩ := exists_firstStray_of_mapM_error h
  have hmem : Item.stray location char ∈ itemsFrom 0 (pieces source) := by
    obtain ⟨ls, later, hitems⟩ := hfirst
    rw [← scan, hitems]
    simp
  obtain ⟨before, after, hsource, hlocation⟩ := exists_of_stray_mem hmem
  rw [flatten_pieces] at hsource
  rw [Nat.zero_add] at hlocation
  -- What the report looks up at the location is the stray character itself.
  have hchar : (LexicalError.report source location).char = char := by
    rw [hsource, hlocation]
    exact LexicalError.char_report before after char
  refine ⟨?_, before, after, ?_, hlocation⟩
  · rw [hchar]
    exact hfirst
  · rw [hchar]
    exact hsource

/-- **A report at a span that covers some of the lexemes, or at the end, points into the
script.** -/
theorem Fault.located_report (hscan : Scan.lexemes source = .ok ls) (fault : Fault) {s : Span}
    (hs : s = ⟨Text.byteSize source, Text.byteSize source⟩ ∨
      ∃ part, part.Sublist ls ∧ Lexeme.Covers part s) :
    (fault.report source s).Located source ls := by
  have hslice : ∃ text, Text.slice? source s.start s.stop = some text := by
    rcases hs with rfl | ⟨part, hpart, hcovers⟩
    · exact ⟨[], Text.slice?_eq_some_iff.mpr ⟨source, [], by simp, rfl, rfl⟩⟩
    · exact hcovers.exists_slice? ((Scan.inOrder_lexemes hscan).sublist hpart)
        fun l hl => Scan.genuine_of_lexemes hscan l (hpart.subset hl)
  obtain ⟨text, hslice⟩ := hslice
  obtain ⟨before, after, hsource, hstart, hstop⟩ := Text.slice?_eq_some_iff.mp hslice
  refine ⟨hs.imp_right fun ⟨part, hpart, hcovers⟩ => hcovers.fromTo hpart,
    before, text, after, hsource, ?_, ?_, ?_⟩
  · change String.ofList ((Text.slice? source s.start s.stop).getD []) = String.ofList text
    rw [hslice]
    rfl
  · change s = _
    rw [hstart, hstop]
  · change Text.placeAt source s.start = _
    rw [hsource, ← hstart, List.append_assoc, Text.placeAt_append]

end

namespace Grammar

/-- **What a rule reports covers some of the lexemes, or is the end.** -/
theorem exists_covers_of_script_error {limit : Nat} (hlimit : 0 < limit) {ls : List Lexeme}
    {f : Failure} (h : script limit ls = .error f) :
    ∀ s ∈ f.span, ∃ part, part.Sublist ls ∧ Lexeme.Covers part s := by
  cases scriptStops_of_error hlimit h with
  | @grammar front rest fault _ _ _ =>
    intro s hs
    obtain ⟨l, hl, rfl⟩ := Option.map_eq_some_iff.mp hs
    obtain ⟨us, rfl⟩ := List.head?_eq_some_iff.mp hl
    exact ⟨[l], by simp, Lexeme.covers_singleton l⟩
  | tooDeep hspan => exact hspan

theorem located_of_script_error {source : List Char} {ls : List Lexeme} {f : Failure}
    (hscan : Scan.lexemes source = .ok ls)
    (h : script maxNesting (Lexeme.significant 0 ls) = .error f) :
    (f.report source).Located source ls := by
  have hcovers := exists_covers_of_script_error (by decide) h
  refine Fault.located_report hscan f.fault ?_
  cases hspan : f.span with
  | none => exact .inl rfl
  | some s =>
    obtain ⟨part, hpart, hs⟩ := hcovers s hspan
    exact .inr ⟨part, hpart.trans (Lexeme.significant_sublist 0 ls), hs⟩

theorem located_of_read_error {source : List Char} {ls : List Lexeme} {ts : List (Tree NodeKind)}
    {f : Flaw} (hscan : Scan.lexemes source = .ok ls)
    (hscript : IsScript (Lexeme.significant 0 ls) ts)
    (h : ts.mapM (Reading.stmt source) = .error f) : (f.report source).Located source ls := by
  obtain ⟨u, hu, hspan⟩ := Reading.exists_subtree_of_mapM_error h
  obtain ⟨part, hpart, hassembled⟩ := hscript.allAssembled.subtree u hu
  have hwords : (Lexeme.words (Lexeme.significant 0 ls)).Sublist ls :=
    List.filter_sublist.trans (Lexeme.significant_sublist 0 ls)
  refine Fault.located_report hscan f.fault (.inr ⟨part, hpart.trans hwords, ?_⟩)
  rw [← hspan]
  exact hassembled.covers

end Grammar

/-- **Every report points into the script.**  A stray character is the first one and stands where
the report says.  The span of a fault is cut from the script between lexemes, or is the end of
the script, with its text and with the place of its start.  The span of a variable is that of a
name with the text of the variable. -/
theorem Script.located_of_compile_error {source : String} {e : CompileError}
    (h : compile source = .error e) : e.Located source.toList := by
  cases rejected_of_compile_error h with
  | scanning hscan => exact Scan.located_of_lexemes_error hscan
  | grammar hscan hscript => exact ⟨_, hscan, Grammar.located_of_script_error hscan hscript⟩
  | reading hscan hscript hread =>
    exact ⟨_, hscan, Grammar.located_of_read_error hscan hscript hread⟩
  | scope hparse hcheck =>
    have hmem := (Program.leftmost_of_check_error (pairwise_refs hparse) hcheck).1
    obtain ⟨ls, hscan, l, hl, hname, -, heq⟩ := exists_name_of_mem_refs hparse hmem
    obtain ⟨htext, hspan⟩ := Prod.mk.inj heq
    exact ⟨ls, hscan, l, (Lexeme.significant_sublist 0 ls).subset hl, hname, htext, hspan⟩

/-- A signed number that is out of range, after a comment with a letter of two bytes. -/
theorem Script.located_of_compile_error_comment :
    let source := "a = 1 # é\nprint(a + -2147483649)"
    let e : ParseError := (Fault.literalOutOfRange "-2147483649").report source.toList ⟨21, 32⟩
    compile source = .error (.parse e) ∧ e.text = "-2147483649" ∧ e.place = ⟨2, 11⟩ ∧
      CompileError.Located source.toList (.parse e) := by
  intro source e
  have hcompile : compile source = .error (.parse e) := by decide +kernel
  exact ⟨hcompile, by decide +kernel, by decide +kernel, located_of_compile_error hcompile⟩

end ArithWat
