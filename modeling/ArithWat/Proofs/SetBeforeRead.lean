import ArithWat.Proofs.CodeMeaning

/-!
# The check of scopes and the order of code

Code *sets before it reads* if every instruction that reads a slot comes after one that sets
the slot (`SetsBeforeGets`).  The check of scopes knows nothing of code, but it accepts exactly
the programs whose code sets before it reads, and otherwise it names the reference behind the
first instruction that reads a slot too early (`Program.check_exact`).

The proof follows the check.  What the check has come to is compared with all the code up to
that point (`Verdict`), and what it knows to be set are the variables whose slots that code
sets (`Scope.Tracks`).
-/

namespace ArithWat

/-! ## References -/

/-- The references in an expression, each with its span, from the left. -/
def Expr.refs : Expr → List (String × Span)
  | num _ => []
  | ref name span => [(name, span)]
  | binary _ l r => l.refs ++ r.refs
  | call1 _ a => a.refs
  | call2 _ a b => a.refs ++ b.refs

/-- **The references in a program**, in the order of its statements. -/
def Program.refs (p : Program) : List (String × Span) := p.flatMap (·.value.refs)

/-- Whether an instruction reads a slot. -/
def Instr.isGet : Instr → Bool
  | get _ => true
  | _ => false

/-- The code of an expression reads a slot for each reference. -/
theorem Expr.countP_isGet_code (e : Expr) : e.code.countP Instr.isGet = e.refs.length := by
  induction e with
  | num v => rfl
  | ref name span => rfl
  | binary op l r ihl ihr =>
    rw [code, refs, List.countP_append, List.countP_append, ihl, ihr, List.length_append]
    rfl
  | call1 f a iha =>
    rw [code, refs, List.countP_append, iha]
    rfl
  | call2 f a b iha ihb =>
    rw [code, refs, List.countP_append, List.countP_append, iha, ihb, List.length_append]
    rfl

/-- The code of an expression sets no slot. -/
theorem Expr.set_not_mem_code (e : Expr) (slot : Slot) : Instr.set slot ∉ e.code := by
  induction e with
  | num v => simp [code]
  | ref name span => simp [code]
  | binary op l r ihl ihr => simp [code, ihl, ihr]
  | call1 f a iha => simp [code, iha]
  | call2 f a b iha ihb => simp [code, iha, ihb]

/-! ## Slots that are read too early -/

/-- **Every slot is set before it is read.** -/
def SetsBeforeGets (code : List Instr) : Prop :=
  ∀ before slot after, code = before ++ .get slot :: after → .set slot ∈ before

/-- **The first instruction that reads a slot too early** is the one after `before`. -/
def FirstUnset (code before : List Instr) : Prop :=
  ∃ slot after, code = before ++ .get slot :: after ∧ .set slot ∉ before ∧ SetsBeforeGets before

variable {code before : List Instr}

theorem setsBeforeGets_nil : SetsBeforeGets [] := by
  intro before slot after h
  cases before <;> cases h

/-- One more instruction keeps the order, unless it reads a slot that was not set. -/
theorem SetsBeforeGets.concat (h : SetsBeforeGets code) {i : Instr}
    (hi : ∀ slot, i = .get slot → .set slot ∈ code) : SetsBeforeGets (code ++ [i]) := by
  intro before slot after hsplit
  rcases List.eq_nil_or_concat after with rfl | ⟨after', j, rfl⟩
  · obtain ⟨rfl, hget⟩ := List.append_inj' hsplit rfl
    exact hi slot (List.cons.inj hget).1
  · have hsplit' : code ++ [i] = (before ++ .get slot :: after') ++ [j] := by
      simpa using hsplit
    exact h before slot after' (List.append_inj' hsplit' rfl).1

theorem FirstUnset.not_setsBeforeGets (h : FirstUnset code before) : ¬SetsBeforeGets code := by
  obtain ⟨slot, after, hsplit, hunset, -⟩ := h
  exact fun hcode => hunset (hcode before slot after hsplit)

/-- What comes later does not change which instruction is the first. -/
theorem FirstUnset.append (h : FirstUnset code before) (later : List Instr) :
    FirstUnset (code ++ later) before := by
  obtain ⟨slot, after, hsplit, hunset, hbefore⟩ := h
  refine ⟨slot, after ++ later, ?_, hunset, hbefore⟩
  rw [hsplit, List.append_assoc, List.cons_append]

/-- There is one first instruction that reads a slot too early. -/
theorem FirstUnset.unique {before' : List Instr} (h : FirstUnset code before)
    (h' : FirstUnset code before') : before = before' := by
  obtain ⟨slot, after, hsplit, hunset, hbefore⟩ := h
  obtain ⟨slot', after', hsplit', hunset', hbefore'⟩ := h'
  -- If one of them came earlier, the other would have it among the instructions before it.
  rcases List.append_eq_append_iff.mp (hsplit.symm.trans hsplit') with
    ⟨between, rfl, hget⟩ | ⟨between, rfl, hget⟩
  · rcases between with _ | ⟨i, between⟩
    · rw [List.append_nil]
    · obtain ⟨rfl, -⟩ := List.cons.inj hget
      exact absurd (hbefore' before slot between rfl) hunset
  · rcases between with _ | ⟨i, between⟩
    · rw [List.append_nil]
    · obtain ⟨rfl, -⟩ := List.cons.inj hget
      exact absurd (hbefore before' slot' between rfl) hunset'

/-! ## The check -/

/-- **What a check may come to** when the code so far is `code` and the references so far are
`refs`: it accepts code that sets before it reads, and it reports the reference with as many
others before it as the first instruction that reads too early has readers before it. -/
def Verdict (code : List Instr) (refs : List (String × Span)) : Except ReferenceError Unit → Prop
  | .ok () => SetsBeforeGets code
  | .error e =>
    ∃ before, FirstUnset code before ∧
      refs[before.countP Instr.isGet]? = some (e.name, e.span)

variable {refs : List (String × Span)} {r : Except ReferenceError Unit}

/-- An instruction that reads nothing changes no verdict. -/
theorem Verdict.concat (h : Verdict code refs r) {i : Instr} (hi : i.isGet = false) :
    Verdict (code ++ [i]) refs r := by
  rcases r with e | ⟨⟩
  · obtain ⟨before, hfirst, href⟩ := h
    exact ⟨before, hfirst.append [i], href⟩
  · refine SetsBeforeGets.concat h fun slot hget => ?_
    rw [hget] at hi
    cases hi

/-- A check that goes on after another. -/
theorem Verdict.bind {later : List Instr} {laterRefs : List (String × Span)}
    {next : Except ReferenceError Unit} (h : Verdict code refs r)
    (hnext : SetsBeforeGets code → Verdict (code ++ later) (refs ++ laterRefs) next) :
    Verdict (code ++ later) (refs ++ laterRefs) (r >>= fun _ => next) := by
  rcases r with e | ⟨⟩
  · obtain ⟨before, hfirst, href⟩ := h
    have hlt := (List.getElem?_eq_some_iff.mp href).1
    refine ⟨before, hfirst.append later, ?_⟩
    rw [List.getElem?_append_left hlt, href]
  · exact hnext h

/-- **What a check has seen**: the scope has the variables whose slots the code sets, and the
code reads a slot for each reference. -/
structure Scope.Tracks (scope : Scope) (code : List Instr) (refs : List (String × Span)) :
    Prop where
  isDefined_iff : ∀ x, scope.isDefined x = true ↔ .set (.named x) ∈ code
  countP_isGet : code.countP Instr.isGet = refs.length

variable {scope : Scope}

theorem Scope.Tracks.append_code (h : scope.Tracks code refs) (e : Expr) :
    scope.Tracks (code ++ e.code) (refs ++ e.refs) where
  isDefined_iff x := by
    rw [h.isDefined_iff x, List.mem_append]
    exact ⟨.inl, (·.resolve_right (e.set_not_mem_code _))⟩
  countP_isGet := by
    rw [List.countP_append, h.countP_isGet, e.countP_isGet_code, List.length_append]

theorem Scope.Tracks.define (h : scope.Tracks code refs) (name : String) :
    (scope.define name).Tracks (code ++ [.set (.named name)]) refs where
  isDefined_iff x := by
    simp [isDefined_define, h.isDefined_iff x]
  countP_isGet := by
    rw [List.countP_append, h.countP_isGet]
    rfl

theorem Scope.Tracks.scratch (h : scope.Tracks code refs) :
    scope.Tracks (code ++ [.set .scratch]) refs where
  isDefined_iff x := by
    simp [h.isDefined_iff x]
  countP_isGet := by
    rw [List.countP_append, h.countP_isGet]
    rfl

/-- **The check of an expression** agrees with all the code up to its end. -/
theorem Expr.verdict (e : Expr) (hscope : scope.Tracks code refs) (hcode : SetsBeforeGets code) :
    Verdict (code ++ e.code) (refs ++ e.refs) (e.check scope) := by
  induction e generalizing code refs with
  | num v =>
    rw [Expr.refs, List.append_nil]
    exact Verdict.concat (r := .ok ()) hcode rfl
  | ref name span =>
    by_cases hname : scope.isDefined name = true
    · rw [check, if_pos hname]
      refine hcode.concat fun slot hget => ?_
      cases hget
      exact (hscope.isDefined_iff name).mp hname
    · rw [check, if_neg hname]
      refine ⟨code, ⟨.named name, [], rfl, ?_, hcode⟩, ?_⟩
      · exact fun hset => hname ((hscope.isDefined_iff name).mpr hset)
      · rw [hscope.countP_isGet, Expr.refs, List.getElem?_concat_length]
  | binary op l r ihl ihr =>
    simp only [Expr.code, Expr.refs, ← List.append_assoc]
    refine Verdict.concat ?_ rfl
    exact (ihl hscope hcode).bind fun hl => ihr (hscope.append_code l) hl
  | call1 f a iha =>
    rw [Expr.code, ← List.append_assoc]
    exact (iha hscope hcode).concat rfl
  | call2 f a b iha ihb =>
    simp only [Expr.code, Expr.refs, ← List.append_assoc]
    refine Verdict.concat ?_ rfl
    exact (iha hscope hcode).bind fun ha => ihb (hscope.append_code a) ha

/-- **The check of a program** agrees with all the code up to its end. -/
theorem Program.verdict (p : Program) (hscope : scope.Tracks code refs)
    (hcode : SetsBeforeGets code) :
    Verdict (code ++ p.code) (refs ++ p.refs) (p.checkFrom scope) := by
  induction p generalizing scope code refs with
  | nil =>
    rw [Program.code_nil, Program.refs, List.flatMap_nil, List.append_nil]
    exact hcode
  | cons s p ih =>
    -- A statement is checked when its value is: the slot is set after that.
    have hvalue : Verdict (code ++ s.code) (refs ++ s.value.refs) (s.value.check scope) := by
      rw [s.code_eq, ← List.append_assoc]
      exact (s.value.verdict hscope hcode).concat rfl
    have hseen := hscope.append_code s.value
    rw [Program.code_cons, Program.refs, List.flatMap_cons, ← List.append_assoc,
      ← List.append_assoc]
    cases s with
    | define name value =>
      refine hvalue.bind fun hstmt => ih ?_ hstmt
      rw [Stmt.code_define, ← List.append_assoc]
      exact hseen.define name
    | expr value =>
      refine hvalue.bind fun hstmt => ih ?_ hstmt
      rw [Stmt.code_expr, ← List.append_assoc]
      exact hseen.scratch

/-- **The check of scopes is exact.**  A program passes exactly when its code sets every slot
before it reads it.  Otherwise some instruction is the first that reads a slot too early, and
the check reports the reference with as many references before it as that instruction has
readers of slots before it. -/
theorem Program.check_exact (p : Program) :
    (p.check = .ok () ↔ SetsBeforeGets p.body.instrs) ∧
      (SetsBeforeGets p.body.instrs ∨ ∃ before, FirstUnset p.body.instrs before) ∧
      ∀ before, FirstUnset p.body.instrs before → ∃ name span,
        p.refs[before.countP Instr.isGet]? = some (name, span) ∧
          p.check = .error ⟨name, span⟩ := by
  have hstart : Scope.empty.Tracks [] [] := ⟨fun x => by simp [Scope.empty, Scope.isDefined], rfl⟩
  have hverdict : Verdict p.body.instrs p.refs p.check := p.verdict hstart setsBeforeGets_nil
  rcases hcheck : p.check with ⟨name, span⟩ | ⟨⟩
  · rw [hcheck] at hverdict
    obtain ⟨before, hfirst, href⟩ := hverdict
    refine ⟨⟨fun h => ?_, fun h => absurd h hfirst.not_setsBeforeGets⟩, .inr ⟨before, hfirst⟩, ?_⟩
    · cases h
    · intro before' hfirst'
      obtain rfl := hfirst.unique hfirst'
      exact ⟨name, span, href, rfl⟩
  · rw [hcheck] at hverdict
    refine ⟨⟨fun _ => hverdict, fun _ => rfl⟩, .inl hverdict, fun before hfirst => ?_⟩
    exact absurd hverdict hfirst.not_setsBeforeGets

/-- A variable whose own value reads it: the third reference of the program is the first that
comes too early, and a later one to a name that is never set is not reported. -/
theorem Program.check_exact_self :
    let p : Program :=
      [.define "a" (.num 1),
       .expr (.call2 .max (.ref "a" ⟨4, 5⟩) (.ref "a" ⟨6, 7⟩)),
       .define "x" (.binary .add (.ref "x" ⟨8, 9⟩) (.ref "y" ⟨10, 11⟩))]
    let before : List Instr :=
      [.const 1, .set (.named "a"), .get (.named "a"), .get (.named "a"),
       .call "max" 2, .set .scratch]
    FirstUnset p.body.instrs before ∧ p.check = .error ⟨"x", ⟨8, 9⟩⟩ := by
  intro p before
  have hsets : SetsBeforeGets before := (check_exact (p.take 2)).1.mp rfl
  have hfirst : FirstUnset p.body.instrs before :=
    ⟨.named "x", [.get (.named "y"), .arith .add, .set (.named "x")], rfl, by decide, hsets⟩
  obtain ⟨-, -, hreport⟩ := p.check_exact
  obtain ⟨name, span, href, hcheck⟩ := hreport before hfirst
  cases href
  exact ⟨hfirst, hcheck⟩

end ArithWat
