import ArithWat.Proofs.Layout
import ArithWat.Proofs.Restart

/-!
# Scripts of blanks

A script of blanks has the empty program without being scanned.  What counts as a blank there is
what trimming takes away, and of these characters the scanner knows five: the blanks within a line
and the line feed (`Scan.isPlainBlank`).  It takes those for layout and separators, and stumbles
over the first of the others (`Scan.lexemes_eq_error`).  So the shortcut shows on scripts of blanks
that are not all plain, and on no others (`Script.shortcut_exact`).
-/

namespace ArithWat

namespace Scan
open Text

/-- The blanks that the scanner knows: those within a line, and the line feed. -/
def isPlainBlank (c : Char) : Bool := isSpace c || c = '\n'

/-- A plain blank begins a run of layout, or is a line feed by itself. -/
theorem munch_of_isPlainBlank {c : Char} (h : isPlainBlank c = true) (cs : List Char) :
    munch c cs =
      if isSpace c then (.layout, runLength isSpace cs) else (.token .newline, 0) := by
  by_cases hspace : isSpace c = true
  · rw [if_pos hspace]
    exact if_pos hspace
  · rw [if_neg hspace, of_decide_eq_true ((Bool.or_eq_true_iff.mp h).resolve_left hspace)]
    rfl

/-- No symbol is a blank, but for the line feed. -/
theorem symbol?_of_isBlank {c : Char} (hblank : isBlank c = true)
    (hplain : isPlainBlank c = false) : symbol? c = none := by
  cases hsymbol : symbol? c with
  | none => rfl
  | some t =>
    have hspells := spells_of_symbol? hsymbol
    by_cases ht : t = .newline
    · subst ht
      obtain ⟨rfl, -⟩ := List.cons.inj hspells
      exact absurd hplain (by decide)
    · obtain ⟨d, rest, hcons, hd⟩ := hspells.exists_not_isBlank ht
      obtain ⟨rfl, -⟩ := List.cons.inj hcons
      rw [hblank] at hd
      cases hd

/-- **Any other blank is stray.** -/
theorem munch_of_isBlank {c : Char} (hblank : isBlank c = true) (hplain : isPlainBlank c = false)
    (cs : List Char) : munch c cs = (.stray, 0) := by
  have hne : ∀ d, isBlank d = false → c ≠ d := by
    rintro d hd rfl
    rw [hblank] at hd
    cases hd
  have hopens : opensExpr c = false :=
    eq_false_of_ne_true fun h => hne c (isBlank_of_opensExpr h) rfl
  simp only [opensExpr, Bool.or_eq_false_iff] at hopens
  obtain ⟨⟨hstart, hdigit⟩, -⟩ := hopens
  have hspace : isSpace c = false := (Bool.or_eq_false_iff.mp hplain).1
  simp [munch, hspace, hstart, hdigit, symbol?_of_isBlank hblank hplain, hne '#' (by decide),
    hne '\\' (by decide), hne '.' (by decide), hne '/' (by decide)]

/-! ## Pieces -/

theorem kind_ne_stray_of_isPlainBlank {cs : List Char} (h : ∀ c ∈ cs, isPlainBlank c = true) :
    ∀ p ∈ pieces cs, p.kind ≠ .stray := by
  induction cs using cut_induction with
  | nil => exact List.forall_mem_nil _
  | cons c cs ih =>
    obtain ⟨hc, hcs⟩ := List.forall_mem_cons.mp h
    rw [pieces_cons, List.forall_mem_cons]
    refine ⟨?_, ih fun d hd => hcs d (List.mem_of_mem_drop hd)⟩
    rw [munch_of_isPlainBlank hc]
    split <;> simp

/-- **The cut stops at the first blank that is not plain**, and goes on behind it. -/
theorem pieces_append_isBlank {cs : List Char} {c : Char} (hcs : ∀ d ∈ cs, isPlainBlank d = true)
    (hblank : isBlank c = true) (hplain : isPlainBlank c = false) (rest : List Char) :
    pieces (cs ++ c :: rest) = pieces cs ++ ⟨.stray, c, []⟩ :: pieces rest := by
  have hfirst : pieces (c :: rest) = ⟨.stray, c, []⟩ :: pieces rest := by
    rw [pieces_cons, munch_of_isBlank hblank hplain]
    rfl
  rw [← hfirst]
  refine pieces_append (P := fun cs => ∀ d ∈ cs, isPlainBlank d = true) (fun d cs hds => ?_) hcs
  obtain ⟨hd, hcs⟩ := List.forall_mem_cons.mp hds
  -- A run of layout ends before the blank, so it is as long as without what follows.
  have hspace : isSpace c = false := (Bool.or_eq_false_iff.mp hplain).1
  refine ⟨?_, fun e he => hcs e (List.mem_of_mem_drop he)⟩
  rw [munch_of_isPlainBlank hd, munch_of_isPlainBlank hd, runLength_append_cons hspace]

/-- **A script is refused for its first blank that is not plain**, if only blanks stand before. -/
theorem lexemes_eq_error {before : List Char} {c : Char}
    (hbefore : ∀ d ∈ before, isPlainBlank d = true) (hblank : isBlank c = true)
    (hplain : isPlainBlank c = false) (rest : List Char) :
    lexemes (before ++ c :: rest) = .error (.report (before ++ c :: rest) (byteSize before)) := by
  have hfirst : (itemsFrom 0 (pieces before)).mapM (Item.check (before ++ c :: rest)) =
      .ok (lexemesFrom 0 (pieces before)) :=
    mapM_check_eq_ok_iff.mpr ⟨kind_ne_stray_of_isPlainBlank hbefore, rfl⟩
  rw [lexemes, scan, pieces_append_isBlank hbefore hblank hplain, itemsFrom_append, flatten_pieces,
    Nat.zero_add, List.mapM_append, hfirst, Except.ok_bind, itemsFrom, List.mapM_cons, Item.check]
  rfl

end Scan

namespace Script

/-- A script of blanks of which the scanner does not know all. -/
def IsOddlyBlank (source : List Char) : Prop :=
  (∀ c ∈ source, Text.isBlank c = true) ∧ ∃ c ∈ source, Scan.isPlainBlank c = false

/-- The tree of such a script is refused for the first character that is not plain. -/
theorem IsOddlyBlank.exists_ofSource_eq_error {source : List Char} (h : IsOddlyBlank source) :
    ∃ before c rest, source = before ++ c :: rest ∧
      (∀ d ∈ before, Scan.isPlainBlank d = true) ∧ Scan.isPlainBlank c = false ∧
      ∃ e, e = .report source (Text.byteSize before) ∧ e.char = c ∧
        Tree.ofSource source = .error (.lexical e) := by
  obtain ⟨hblank, c, hc, hodd⟩ := h
  have hfind : (source.find? (!Scan.isPlainBlank ·)).isSome = true :=
    List.find?_isSome.mpr ⟨c, hc, by rw [hodd]; rfl⟩
  obtain ⟨first, hfirst⟩ := Option.isSome_iff_exists.mp hfind
  obtain ⟨hplain, before, rest, rfl, hbefore⟩ := List.find?_eq_some_iff_append.mp hfirst
  simp only [Bool.not_not, Bool.not_eq_true'] at hplain hbefore
  refine ⟨before, first, rest, rfl, hbefore, hplain, _, rfl, LexicalError.char_report .., ?_⟩
  have hscan := Scan.lexemes_eq_error hbefore (hblank first (by simp)) hplain rest
  rw [Tree.ofSource, hscan]
  rfl

theorem IsOddlyBlank.parse_eq {source : String} (h : IsOddlyBlank source.toList) :
    parse source = .ok [] :=
  if_pos (Text.isEmpty_trim_iff.mpr h.1)

/-- Any other script has the program of its tree. -/
theorem parse_eq_parseTree_of_not_isOddlyBlank {source : String}
    (h : ¬ IsOddlyBlank source.toList) : parse source = parseTree source.toList := by
  by_cases hblank : ∀ c ∈ source.toList, Text.isBlank c = true
  · have hplain : ∀ c ∈ source.toList, Scan.isPlainBlank c = true := fun c hc =>
      of_not_not fun hodd => h ⟨hblank, c, hc, eq_false_of_ne_true hodd⟩
    exact parse_eq_parseTree
      (Scan.lexemes_eq_ok_iff.mpr ⟨Scan.kind_ne_stray_of_isPlainBlank hplain, rfl⟩)
  · exact if_neg fun hempty => hblank (Text.isEmpty_trim_iff.mp hempty)

/-- **The shortcut for scripts of blanks is exact**, but for those with a blank that is not plain.
On these it gives the empty program, where the tree is refused for the first such character. -/
theorem shortcut_exact (source : String) :
    (parse source = parseTree source.toList ↔ ¬ IsOddlyBlank source.toList) ∧
    (IsOddlyBlank source.toList → parse source = .ok [] ∧
      ∃ before c rest, source.toList = before ++ c :: rest ∧
        (∀ d ∈ before, Scan.isPlainBlank d = true) ∧ Scan.isPlainBlank c = false ∧
        ∃ e, e = .report source.toList (Text.byteSize before) ∧ e.char = c ∧
          Tree.ofSource source.toList = .error (.lexical e)) := by
  refine ⟨⟨fun hparse hodd => ?_, parse_eq_parseTree_of_not_isOddlyBlank⟩,
    fun hodd => ⟨hodd.parse_eq, hodd.exists_ofSource_eq_error⟩⟩
  obtain ⟨-, -, -, -, -, -, e, -, -, htree⟩ := hodd.exists_ofSource_eq_error
  rw [hodd.parse_eq, parseTree, htree] at hparse
  cases hparse

/-- A space, a line feed, and then a vertical tab and a wide space, which are not plain. -/
theorem shortcut_exact_tab :
    let source := " \n\x0b\u2003"
    IsOddlyBlank source.toList ∧ parse source ≠ parseTree source.toList ∧ parse source = .ok [] ∧
      ∃ before c rest, source.toList = before ++ c :: rest ∧
        (∀ d ∈ before, Scan.isPlainBlank d = true) ∧ Scan.isPlainBlank c = false ∧
        ∃ e, e = .report source.toList (Text.byteSize before) ∧ e.char = c ∧
          Tree.ofSource source.toList = .error (.lexical e) := by
  intro source
  have hodd : IsOddlyBlank source.toList :=
    ⟨List.all_eq_true.mp (by decide +kernel), '\x0b', by decide +kernel, by decide⟩
  obtain ⟨hiff, herror⟩ := shortcut_exact source
  exact ⟨hodd, fun hparse => hiff.mp hparse hodd, herror hodd⟩

end Script

end ArithWat
