import ArithWat.Proofs.Outcome
import ArithWat.Proofs.Reading

/-!
# Walking is reading

A walk that begins on a node of a tree, with any cursor that behaves as a cursor on that
tree should, comes to what `Reading` reads off the subtree of the node, and ends on the
node it began on.

A cursor *conforms* to plain trees (`Conforms`) if there is a relation between its states
and locations that every look and every move respects.  What a walk does is then stated on
the location side (`Ends`): from a given location it comes to a given outcome, and where
it ends satisfies a given condition.  A walk among the children of a node ends on one
of their siblings, which is all that is needed to come back up to the node.

The last section is about the bound that the loop over the statements carries: with room
for the children of the node, the loop is the one without a bound (`stmts_eq_loop`), and
more room makes no difference (`program_eq_programUpTo`).
-/

theorem Option.Rel.eq_none {α β : Type} {R : α → β → Prop} {o : Option α}
    (h : Option.Rel R o Option.none) : o = Option.none := by
  cases h
  rfl

theorem Option.Rel.exists_eq_some {α β : Type} {R : α → β → Prop} {o : Option α} {b : β}
    (h : Option.Rel R o (Option.some b)) : ∃ a, o = Option.some a ∧ R a b := by
  cases h with
  | some h => exact ⟨_, rfl, h⟩

namespace ArithWat

/-! ## Locations of siblings -/

namespace Location
variable {κ : Type}

/-- The siblings to the right of the focus. -/
def later (l : Location κ) : List (Tree κ) :=
  match l.above with
  | [] => []
  | c :: _ => c.later

theorem nextSibling?_of_later_nil {l : Location κ} (h : l.later = []) :
    l.nextSibling? = none := by
  obtain ⟨focus, above⟩ := l
  cases above with
  | nil => rfl
  | cons c above =>
    obtain ⟨k, s, before, later⟩ := c
    obtain rfl : later = [] := h
    rfl

theorem nextSibling?_of_later_cons {l : Location κ} {t : Tree κ} {ts : List (Tree κ)}
    (h : l.later = t :: ts) :
    ∃ l', l.nextSibling? = some l' ∧ l'.focus = t ∧ l'.later = ts ∧ l'.parent? = l.parent? := by
  obtain ⟨focus, above⟩ := l
  cases above with
  | nil => cases h
  | cons c above =>
    obtain ⟨k, s, before, later⟩ := c
    obtain rfl : later = t :: ts := h
    exact ⟨_, rfl, rfl, rfl, by simp [parent?]⟩

theorem firstChild?_of_children_cons {l : Location κ} {t : Tree κ} {ts : List (Tree κ)}
    (h : l.focus.children = t :: ts) :
    ∃ l', l.firstChild? = some l' ∧ l'.focus = t ∧ l'.later = ts ∧ l'.parent? = some l := by
  obtain ⟨⟨k, s, us⟩, above⟩ := l
  obtain rfl : us = t :: ts := h
  exact ⟨_, rfl, rfl, rfl, rfl⟩

theorem firstChild?_of_children_nil {l : Location κ} (h : l.focus.children = []) :
    l.firstChild? = none := by
  obtain ⟨⟨k, s, us⟩, above⟩ := l
  obtain rfl : us = [] := h
  rfl

end Location

/-! ## Conforming cursors -/

/-- **A cursor conforms to plain trees** along a relation between its states and
locations: related ones show the same and move together. -/
structure Conforms {γ κ : Type} [TreeCursor γ] [Tagged κ] (R : γ → Location κ → Prop) :
    Prop where
  tag : ∀ {c l}, R c l → TreeCursor.tag c = Tagged.tag l.focus.kind
  span : ∀ {c l}, R c l → TreeCursor.span c = l.focus.span
  childCount : ∀ {c l}, R c l → TreeCursor.childCount c = l.focus.children.length
  firstChild? : ∀ {c l}, R c l → Option.Rel R (TreeCursor.firstChild? c) l.firstChild?
  nextSibling? : ∀ {c l}, R c l → Option.Rel R (TreeCursor.nextSibling? c) l.nextSibling?
  parent? : ∀ {c l}, R c l → Option.Rel R (TreeCursor.parent? c) l.parent?

/-- Locations are themselves a conforming cursor. -/
theorem conforms_location {κ : Type} [Tagged κ] :
    Conforms (fun l l' : Location κ => l = l') := by
  have hrel : ∀ o : Option (Location κ), Option.Rel (fun l l' => l = l') o o := by
    intro o
    cases o with
    | none => exact .none
    | some l => exact .some rfl
  constructor <;> rintro c _ rfl
  · rfl
  · rfl
  · rfl
  · exact hrel _
  · exact hrel _
  · exact hrel _

namespace Conforms
variable {γ κ : Type} [TreeCursor γ] [Tagged κ] {R : γ → Location κ → Prop} (hR : Conforms R)
include hR

/-- A cursor has a sibling to its right if the location has. -/
theorem nextSibling?_cases {c : γ} {l : Location κ} (hc : R c l) :
    (l.later = [] ∧ TreeCursor.nextSibling? c = none) ∨
      ∃ c' l', l.later = l'.focus :: l'.later ∧ l'.parent? = l.parent? ∧
        TreeCursor.nextSibling? c = some c' ∧ R c' l' := by
  have hmove := hR.nextSibling? hc
  cases hlater : l.later with
  | nil =>
    rw [Location.nextSibling?_of_later_nil hlater] at hmove
    exact .inl ⟨rfl, hmove.eq_none⟩
  | cons t ts =>
    obtain ⟨l', hl', rfl, rfl, hparent⟩ := Location.nextSibling?_of_later_cons hlater
    rw [hl'] at hmove
    obtain ⟨c', hnext, hc'⟩ := hmove.exists_eq_some
    exact .inr ⟨c', l', rfl, hparent, hnext, hc'⟩

/-- A cursor has a child if the tree in focus has. -/
theorem firstChild?_cases {c : γ} {l : Location κ} (hc : R c l) :
    (l.focus.children = [] ∧ TreeCursor.firstChild? c = none) ∨
      ∃ c' l', l.focus.children = l'.focus :: l'.later ∧ l'.parent? = some l ∧
        TreeCursor.firstChild? c = some c' ∧ R c' l' := by
  have hmove := hR.firstChild? hc
  cases hchildren : l.focus.children with
  | nil =>
    rw [Location.firstChild?_of_children_nil hchildren] at hmove
    exact .inl ⟨rfl, hmove.eq_none⟩
  | cons t ts =>
    obtain ⟨l', hl', rfl, rfl, hparent⟩ := Location.firstChild?_of_children_cons hchildren
    rw [hl'] at hmove
    obtain ⟨c', hfirst, hc'⟩ := hmove.exists_eq_some
    exact .inr ⟨c', l', rfl, hparent, hfirst, hc'⟩

end Conforms

namespace Walk
variable {γ κ α β : Type} {R : γ → Location κ → Prop} {Q : Location κ → Prop}
variable {source : List Char} {l : Location κ}

/-- An outcome, with where the cursor ends. -/
def ended (source : List Char) (r : Except Flaw α) (c : γ) : EStateM.Result ParseError γ α :=
  match r with
  | .ok a => .ok a c
  | .error f => .error (f.report source) c

/-- **From `l` the walk comes to `r`** and ends on a location with `Q`. -/
def Ends (R : γ → Location κ → Prop) (source : List Char) (Q : Location κ → Prop)
    (w : Walk γ α) (l : Location κ) (r : Except Flaw α) : Prop :=
  ∀ c, R c l → ∃ c' l', R c' l' ∧ Q l' ∧ w c = ended source r c'

/-- **Two walks are the same from `l`**, whichever cursor stands there. -/
def SameFrom (R : γ → Location κ → Prop) (w w' : Walk γ α) (l : Location κ) : Prop :=
  ∀ c, R c l → w c = w' c

/-! ## Steps of a walk -/

theorem ends_pure (hQ : Q l) (a : α) : Ends R source Q (pure a) l (.ok a) :=
  fun c hc => ⟨c, l, hc, hQ, rfl⟩

theorem Ends.mono {Q' : Location κ → Prop} {w : Walk γ α} {r : Except Flaw α}
    (hw : Ends R source Q w l r) (hQ : ∀ l', Q l' → Q' l') : Ends R source Q' w l r := by
  intro c hc
  obtain ⟨c', l', hc', hl', hend⟩ := hw c hc
  exact ⟨c', l', hc', hQ l' hl', hend⟩

/-- What follows a walk that comes back goes on from the same location. -/
theorem Ends.bind {w : Walk γ α} {r : Except Flaw α} {f : α → Walk γ β} {g : α → Except Flaw β}
    (hw : Ends R source (· = l) w l r) (hQ : Q l) (hf : ∀ a, Ends R source Q (f a) l (g a)) :
    Ends R source Q (w >>= f) l (r >>= g) := by
  intro c hc
  obtain ⟨c', l', hc', hl', hend⟩ := hw c hc
  subst hl'
  cases r with
  | error e =>
    refine ⟨c', l', hc', hQ, ?_⟩
    simp only [Bind.bind, EStateM.bind, hend]
    rfl
  | ok a =>
    obtain ⟨c'', l'', hc'', hQ'', hend'⟩ := hf a c' hc'
    refine ⟨c'', l'', hc'', hQ'', ?_⟩
    simp only [Bind.bind, EStateM.bind, hend]
    exact hend'

/-- A value made of what a walk comes to, wherever the walk ends. -/
theorem Ends.map {w : Walk γ α} {r : Except Flaw α} (hw : Ends R source Q w l r) (f : α → β) :
    Ends R source Q (w >>= fun a => pure (f a)) l (r >>= fun a => .ok (f a)) := by
  intro c hc
  obtain ⟨c', l', hc', hl', hend⟩ := hw c hc
  refine ⟨c', l', hc', hl', ?_⟩
  simp only [Bind.bind, EStateM.bind, hend]
  cases r with
  | error e => rfl
  | ok a => rfl

/-- What a walk comes to, wherever it ends. -/
theorem Ends.outcome_eq {w : Walk γ α} {r : Except Flaw α} (hw : Ends R source Q w l r) {c : γ}
    (hc : R c l) : outcome w c = r.mapError (·.report source) := by
  obtain ⟨c', l', -, -, hend⟩ := hw c hc
  rw [outcome, hend]
  cases r with
  | error f => rfl
  | ok a => rfl

/-- A walk that looks at its cursor sees the focus. -/
theorem ends_get {f : γ → Walk γ α} {r : Except Flaw α}
    (hf : ∀ c, R c l → Ends R source Q (f c) l r) : Ends R source Q (get >>= f) l r :=
  fun c hc => hf c hc c hc

theorem sameFrom_refl (w : Walk γ α) : SameFrom R w w l := fun _ _ => rfl

theorem SameFrom.trans {w₁ w₂ w₃ : Walk γ α} (h : SameFrom R w₁ w₂ l)
    (h' : SameFrom R w₂ w₃ l) : SameFrom R w₁ w₃ l :=
  fun c hc => (h c hc).trans (h' c hc)

theorem SameFrom.bind {w w' : Walk γ α} (h : SameFrom R w w' l) (f : α → Walk γ β) :
    SameFrom R (w >>= f) (w' >>= f) l := by
  intro c hc
  simp only [Bind.bind, EStateM.bind, h c hc]

theorem Ends.sameFrom_bind {w : Walk γ α} {r : Except Flaw α} {f g : α → Walk γ β}
    (hw : Ends R source (· = l) w l r) (hfg : ∀ a, SameFrom R (f a) (g a) l) :
    SameFrom R (w >>= f) (w >>= g) l := by
  intro c hc
  obtain ⟨c', l', hc', rfl, hend⟩ := hw c hc
  simp only [Bind.bind, EStateM.bind, hend]
  cases r with
  | error e => rfl
  | ok a => exact hfg a c' hc'

theorem sameFrom_get {f g : γ → Walk γ α} (h : ∀ c, R c l → SameFrom R (f c) (g c) l) :
    SameFrom R (get >>= f) (get >>= g) l :=
  fun c hc => h c hc c hc

variable [TreeCursor γ] [Tagged κ] (hR : Conforms R)
include hR

theorem kind?_eq {c : γ} (hc : R c l) : kind? c = Reading.kind? l.focus := by
  rw [kind?, hR.tag hc]
  rfl

theorem text_eq {c : γ} (hc : R c l) : text source c = Reading.text source l.focus := by
  rw [text, hR.span hc]
  rfl

theorem ends_fail (hQ : Q l) (fault : Fault) :
    Ends R source Q (fail source fault : Walk γ α) l (Reading.flaw l.focus fault) := by
  intro c hc
  refine ⟨c, l, hc, hQ, ?_⟩
  rw [fail, hR.span hc]
  rfl

theorem ends_fail_bind (hQ : Q l) {fault : Fault} (f : α → Walk γ β) :
    Ends R source Q (fail source fault >>= f) l (Reading.flaw l.focus fault) := by
  intro c hc
  refine ⟨c, l, hc, hQ, ?_⟩
  simp only [Bind.bind, EStateM.bind, fail, hR.span hc]
  rfl

/-- A test of the focus, without which the walk fails there. -/
theorem ends_unless (hQ : Q l) {p : Prop} [Decidable p] {fault : Fault}
    {f : Unit → Walk γ α} {r : Except Flaw α} (hf : p → Ends R source Q (f ()) l r) :
    Ends R source Q (if p then f () else fail source fault >>= f) l
      (if p then r else Reading.flaw l.focus fault) := by
  split
  · exact hf ‹_›
  · exact ends_fail_bind hR hQ f

/-- A move to the next sibling, if there is one. -/
theorem ends_nextSibling {f : Bool → Walk γ α} {r : Except Flaw α}
    (hstay : l.later = [] → Ends R source Q (f false) l r)
    (hgo : ∀ l', l'.parent? = l.parent? → l.later = l'.focus :: l'.later →
      Ends R source Q (f true) l' r) :
    Ends R source Q (move TreeCursor.nextSibling? >>= f) l r := by
  intro c hc
  rcases hR.nextSibling?_cases hc with ⟨hlater, hnext⟩ | ⟨c', l', hlater, hparent, hnext, hc'⟩
  · simp only [Bind.bind, EStateM.bind, move, hnext]
    exact hstay hlater c hc
  · simp only [Bind.bind, EStateM.bind, move, hnext]
    exact hgo l' hparent hlater c' hc'

/-- A move to the next sibling, where there must be one. -/
theorem ends_advance {part : Part} {f : Unit → Walk γ α}
    {g : Tree κ × List (Tree κ) → Except Flaw α} (hQ : Q l)
    (hf : ∀ l', l'.parent? = l.parent? → Ends R source Q (f ()) l' (g (l'.focus, l'.later))) :
    Ends R source Q (advance source part >>= f) l
      (Reading.next part l.focus l.later >>= g) := by
  rw [advance, bind_assoc]
  refine ends_nextSibling hR (fun hlater => ?_) fun l' hparent hlater => ?_
  · simp only [Bool.false_eq_true, if_false, bind_assoc, hlater]
    refine ends_get fun c hc => ?_
    rw [hR.tag hc]
    exact ends_fail_bind hR hQ f
  · simp only [if_true, pure_bind, hlater]
    exact hf l' hparent

/-- A move to the next sibling, which must pass a test. -/
theorem ends_advanceTo {test : Option NodeKind → Bool} {fault : Fault} {f : Unit → Walk γ α}
    {g : Tree κ × List (Tree κ) → Except Flaw α} (hQ : ∀ l', l'.parent? = l.parent? → Q l')
    (hf : ∀ l', l'.parent? = l.parent? → Ends R source Q (f ()) l' (g (l'.focus, l'.later))) :
    Ends R source Q (advanceTo source test fault >>= f) l
      (Reading.nextTo test fault l.focus l.later >>= g) := by
  rw [advanceTo, bind_assoc]
  refine ends_nextSibling hR (fun hlater => ?_) fun l' hparent hlater => ?_
  · simp only [Bool.false_eq_true, if_false, hlater]
    exact ends_fail_bind hR (hQ l rfl) f
  · simp only [if_true, bind_assoc, hlater, Reading.nextTo]
    refine ends_get fun c hc => ?_
    rw [kind?_eq hR hc]
    cases htest : test (Reading.kind? l'.focus) with
    | true => simpa using hf l' hparent
    | false =>
      simp only [Bool.false_eq_true, if_false]
      exact ends_fail_bind hR (hQ l' hparent) f

/-- **A walk among the children of a node comes back to it.** -/
theorem ends_withinChildren {body : Walk γ α}
    {body' : Tree κ → List (Tree κ) → Except Flaw α}
    (hbody : ∀ l', l.focus.children = l'.focus :: l'.later → l'.parent? = some l →
      Ends R source (·.parent? = some l) body l' (body' l'.focus l'.later)) :
    Ends R source (· = l) (withinChildren source body) l
      (Reading.withinChildren l.focus body') := by
  intro c hc
  unfold withinChildren Reading.withinChildren
  rcases hR.firstChild?_cases hc with
    ⟨hchildren, hfirst⟩ | ⟨c', l', hchildren, hparent, hfirst, hc'⟩
  · rw [hchildren, hfirst, hR.tag hc]
    exact ends_fail (Q := (· = l)) hR rfl _ c hc
  · obtain ⟨c'', l'', hc'', hup, hend⟩ := hbody l' hchildren hparent c' hc'
    have hmove' := hR.parent? hc''
    rw [hup] at hmove'
    obtain ⟨c₀, hc₀, hR₀⟩ := hmove'.exists_eq_some
    refine ⟨c₀, l, hR₀, rfl, ?_⟩
    have hup : up c'' = c₀ := by rw [up, hc₀, Option.getD_some]
    rw [hchildren, hfirst]
    simp only [hend]
    cases body' l'.focus l'.later <;> simp [ended, hup]

/-! ## Expressions -/

theorem ends_operator (l : Location κ) :
    Ends R source (· = l) (operator source) l (Reading.operator source l.focus) := by
  refine ends_get fun c hc => ?_
  rw [kind?_eq hR hc, text_eq hR hc, hR.tag hc, Reading.operator]
  split
  · cases ArithOp.ofText? (Reading.text source l.focus) with
    | none => exact ends_fail (Q := (· = l)) hR rfl _
    | some op => exact ends_pure (Q := (· = l)) rfl _
  · exact ends_fail (Q := (· = l)) hR rfl _

omit hR [TreeCursor γ] [Tagged κ] in
theorem ends_literal (l : Location κ) (text : String) :
    Ends R source (· = l) (literal source l.focus.span text : Walk γ Expr) l
      (Reading.literal l.focus text) := by
  unfold literal Reading.literal
  cases Literal.read text with
  | ok v => exact ends_pure (Q := (· = l)) rfl _
  | error fault => exact fun c hc => ⟨c, l, hc, rfl, rfl⟩

theorem ends_signedText (l : Location κ) :
    Ends R source (·.parent? = l.parent?) (signedText source) l
      (Reading.signedText source l.focus l.later) := by
  refine ends_get fun c hc => ?_
  simp only [kind?_eq hR hc, text_eq hR hc, Reading.signedText]
  refine ends_unless (Q := (·.parent? = l.parent?)) hR rfl fun _ => ?_
  refine ends_advance (Q := (·.parent? = l.parent?)) hR rfl fun l' hparent => ?_
  refine ends_get fun c' hc' => ?_
  simp only [kind?_eq hR hc', text_eq hR hc']
  exact ends_unless hR hparent fun _ => ends_pure hparent _

theorem ends_signedLiteral (l : Location κ) :
    Ends R source (· = l) (signedLiteral source) l
      (Reading.withinChildren l.focus (Reading.signedText source) >>= Reading.literal l.focus) := by
  refine ends_get fun c hc => ?_
  rw [hR.span hc]
  refine Ends.bind (ends_withinChildren hR fun l' _ hl' => ?_) rfl fun text => ends_literal l text
  rw [← hl']
  exact ends_signedText hR l'

/-- A walk within the argument list after a callee ends on that list. -/
theorem ends_withinArguments {name : String} {body : Walk γ α}
    {body' : Tree κ → List (Tree κ) → Except Flaw α} {above : Option (Location κ)}
    (habove : l.parent? = above)
    (hbody : ∀ l' parent, l'.parent? = some parent →
      Ends R source (·.parent? = some parent) body l' (body' l'.focus l'.later)) :
    Ends R source (·.parent? = above) (withinArguments source name body) l
      (Reading.withinArguments name l.focus l.later body') := by
  refine ends_advance hR habove fun l₁ hl₁ => ?_
  rw [habove] at hl₁
  refine ends_get fun c hc => ?_
  simp only [kind?_eq hR hc]
  refine ends_unless hR hl₁ fun _ => ?_
  refine Ends.mono (Q := (· = l₁)) (ends_withinChildren hR fun l₂ _ hl₂ => ?_) fun l' hl' => ?_
  · refine ends_get fun c hc => ?_
    simp only [kind?_eq hR hc]
    exact ends_unless hR hl₂ fun _ => hbody l₂ l₁ hl₂
  · rw [hl', hl₁]

section Operand
variable {operand : Walk γ Expr} {operand' : Tree κ → Except Flaw Expr}
variable (hoperand : ∀ l, Ends R source (· = l) operand l (operand' l.focus))
include hoperand

theorem ends_binary (l : Location κ) :
    Ends R source (· = l) (binary source operand) l (Reading.binary source operand' l.focus) := by
  refine ends_withinChildren hR fun l₁ _ hl₁ => ?_
  refine Ends.bind (hoperand l₁) hl₁ fun left => ?_
  refine ends_advance hR hl₁ fun l₂ hl₂ => ?_
  rw [hl₁] at hl₂
  refine Ends.bind (ends_operator hR l₂) hl₂ fun op => ?_
  refine ends_advance hR hl₂ fun l₃ hl₃ => ?_
  rw [hl₂] at hl₃
  exact Ends.bind (hoperand l₃) hl₃ fun right => ends_pure hl₃ _

/-- An argument is read on the sibling it stands on. -/
theorem ends_argument {name : String} {f : Expr → Walk γ α}
    {g : Tree κ × List (Tree κ) → Expr → Except Flaw α} {above : Option (Location κ)}
    (habove : l.parent? = above)
    (hf : ∀ l' e, l'.parent? = above →
      Ends R source (·.parent? = above) (f e) l' (g (l'.focus, l'.later) e)) :
    Ends R source (·.parent? = above) (argument source name operand >>= f) l
      (Reading.nextTo isArgument (.missingArgument name) l.focus l.later >>= fun next =>
        operand' next.1 >>= g next) := by
  rw [argument, bind_assoc]
  refine ends_advanceTo hR (fun l' hl' => hl'.trans habove) fun l' hl' => ?_
  rw [habove] at hl'
  exact Ends.bind (hoperand l') hl' fun e => hf l' e hl'

theorem ends_call (l : Location κ) :
    Ends R source (· = l) (call source operand) l (Reading.call source operand' l.focus) := by
  refine ends_withinChildren hR fun l₁ _ hl₁ => ?_
  refine ends_get fun c hc => ?_
  simp only [text_eq hR hc]
  cases UnaryBuiltin.ofName? (Reading.text source l₁.focus) with
  | some f =>
    refine ends_withinArguments hR hl₁ fun l₂ args hl₂ => ?_
    refine ends_argument hR hoperand hl₂ fun l₃ e hl₃ => ?_
    exact ends_advanceTo hR (fun l' hl' => hl'.trans hl₃) fun l' hl' =>
      ends_pure (hl'.trans hl₃) _
  | none =>
    cases BinaryBuiltin.ofName? (Reading.text source l₁.focus) with
    | some f =>
      refine ends_withinArguments hR hl₁ fun l₂ args hl₂ => ?_
      refine ends_argument hR hoperand hl₂ fun l₃ e₁ hl₃ => ?_
      refine ends_advanceTo hR (fun l' hl' => hl'.trans hl₃) fun l₄ hl₄ => ?_
      refine ends_argument hR hoperand (hl₄.trans hl₃) fun l₅ e₂ hl₅ => ?_
      exact ends_advanceTo hR (fun l' hl' => hl'.trans hl₅) fun l' hl' =>
        ends_pure (hl'.trans hl₅) _
    | none => exact ends_fail hR hl₁ _

end Operand

/-- **Walking over an expression is reading it**, and comes back. -/
theorem ends_exprWithin (levels : Nat) (l : Location κ) :
    Ends R source (· = l) (exprWithin source levels) l
      (Reading.exprWithin source levels l.focus) := by
  induction levels generalizing l with
  | zero => exact ends_fail (Q := (· = l)) hR rfl _
  | succ levels ih =>
    refine ends_get fun c hc => ?_
    simp only [kind?_eq hR hc, text_eq hR hc, hR.span hc, hR.tag hc, Reading.exprWithin]
    cases Reading.kind? l.focus with
    | none => exact ends_fail (Q := (· = l)) hR rfl _
    | some k =>
      cases k with
      | number => exact ends_literal l _
      | unaryExpression => exact ends_signedLiteral hR l
      | variableName => exact ends_pure (Q := (· = l)) rfl _
      | binaryExpression => exact ends_binary hR ih l
      | callExpression => exact ends_call hR ih l
      | _ => exact ends_fail (Q := (· = l)) hR rfl _

/-! ## Statements and programs -/

/-- **Walking over a statement is reading it**, and comes back. -/
theorem ends_stmt (l : Location κ) :
    Ends R source (· = l) (stmt source) l (Reading.stmt source l.focus) := by
  refine ends_get fun c hc => ?_
  simp only [kind?_eq hR hc, hR.tag hc, Reading.stmt]
  cases Reading.kind? l.focus with
  | none => exact ends_fail (Q := (· = l)) hR rfl _
  | some k =>
    cases k with
    | assignStatement =>
      refine ends_withinChildren hR fun l₁ _ hl₁ => ?_
      refine ends_get fun c hc => ?_
      simp only [kind?_eq hR hc, text_eq hR hc, hR.tag hc]
      refine ends_unless hR hl₁ fun _ => ?_
      refine ends_advance hR hl₁ fun l₂ hl₂ => ?_
      refine ends_advance hR (hl₂.trans hl₁) fun l₃ hl₃ => ?_
      have hl₃ := hl₃.trans (hl₂.trans hl₁)
      exact Ends.bind (ends_exprWithin hR _ l₃) hl₃ fun e => ends_pure hl₃ _
    | expressionStatement =>
      refine ends_withinChildren hR fun l₁ _ hl₁ => ?_
      rw [map_eq_pure_bind]
      exact Ends.bind (ends_exprWithin hR _ l₁) hl₁ fun e => ends_pure hl₁ _
    | _ => exact ends_fail (Q := (· = l)) hR rfl _

/-- The statement on a location and those on its later siblings are read in order. -/
theorem ends_stmts {n : Nat} {above : Option (Location κ)} (habove : l.parent? = above)
    (hn : l.later.length ≤ n) :
    Ends R source (·.parent? = above) (stmts source n) l
      ((l.focus :: l.later).mapM (Reading.stmt source)) := by
  induction n generalizing l with
  | zero =>
    rw [List.length_eq_zero_iff.mp (Nat.le_zero.mp hn), List.mapM_cons]
    exact Ends.bind (ends_stmt hR l) habove fun s => ends_pure habove _
  | succ n ih =>
    rw [List.mapM_cons]
    refine Ends.bind (ends_stmt hR l) habove fun s => ?_
    refine ends_nextSibling hR (fun hlater => ?_) fun l' hl' hlater => ?_
    · rw [hlater]
      exact ends_pure habove _
    · rw [hlater] at hn ⊢
      exact (ih (hl'.trans habove) (Nat.le_of_succ_le_succ hn)).map _

/-- A program is read off its tree under any bound that leaves room for the children. -/
theorem ends_programUpTo {n : Nat} (hn : l.focus.children.length ≤ n + 1) :
    Ends R source (· = l) (programUpTo source n) l (Reading.program source l.focus) := by
  refine ends_get fun c hc => ?_
  simp only [kind?_eq hR hc, hR.tag hc, Reading.program]
  split
  · rcases hR.firstChild?_cases hc with ⟨hchildren, hfirst⟩ | ⟨c', l', hchildren, -, hfirst, -⟩
    · rw [hchildren, hfirst]
      exact ends_pure (Q := (· = l)) rfl _
    · have hread : l.focus.children.mapM (Reading.stmt source) =
          Reading.withinChildren l.focus fun u us => (u :: us).mapM (Reading.stmt source) := by
        rw [Reading.withinChildren, hchildren]
      rw [hread, hfirst]
      refine ends_withinChildren hR fun l₁ hl₁ hup => ends_stmts hR hup ?_
      rw [hl₁, List.length_cons] at hn
      exact Nat.le_of_succ_le_succ hn
  · exact ends_fail (Q := (· = l)) hR rfl _

/-- **Walking over a program is reading it**, and comes back. -/
theorem ends_program (l : Location κ) :
    Ends R source (· = l) (program source) l (Reading.program source l.focus) := by
  refine ends_get fun c hc => ends_programUpTo hR ?_
  rw [hR.childCount hc]
  omega

/-- **The outcome of a walk over a program** is what the tree under the cursor says. -/
theorem outcome_program {c : γ} (hc : R c l) :
    outcome (program source) c = (Reading.program source l.focus).mapError (·.report source) :=
  (ends_program hR l).outcome_eq hc

/-! ## The bound on the loop over the statements

`stmts` reads at most a given number of statements, and `program` gives it that of the
children.  With that number or any larger one it is the loop that goes on for as long as
there is a sibling. -/

/-- The last sibling has none to its right. -/
theorem sameFrom_of_later_nil (hlater : l.later = []) (f : Bool → Walk γ α) :
    SameFrom R (move TreeCursor.nextSibling? >>= f) (f false) l := by
  intro c hc
  have hmove := hR.nextSibling? hc
  rw [Location.nextSibling?_of_later_nil hlater] at hmove
  simp only [Bind.bind, EStateM.bind, move, hmove.eq_none]

theorem sameFrom_nextSibling {f g : Bool → Walk γ α} (hstay : f false = g false)
    (hgo : ∀ l', l.later = l'.focus :: l'.later → SameFrom R (f true) (g true) l') :
    SameFrom R (move TreeCursor.nextSibling? >>= f) (move TreeCursor.nextSibling? >>= g) l := by
  intro c hc
  rcases hR.nextSibling?_cases hc with ⟨-, hnext⟩ | ⟨c', l', hlater, -, hnext, hc'⟩
  · simp only [Bind.bind, EStateM.bind, move, hnext, hstay]
  · simp only [Bind.bind, EStateM.bind, move, hnext]
    exact hgo l' hlater c' hc'

/-- Room for one more statement than there are siblings makes no difference. -/
theorem sameFrom_stmts_succ {n : Nat} (hn : l.later.length ≤ n) :
    SameFrom R (stmts source (n + 1)) (stmts source n) l := by
  induction n generalizing l with
  | zero =>
    have hlater := List.length_eq_zero_iff.mp (Nat.le_zero.mp hn)
    exact (ends_stmt hR l).sameFrom_bind fun s => sameFrom_of_later_nil hR hlater _
  | succ n ih =>
    refine (ends_stmt hR l).sameFrom_bind fun s => ?_
    refine sameFrom_nextSibling hR rfl fun l' hlater => ?_
    rw [hlater] at hn
    exact (ih (Nat.le_of_succ_le_succ hn)).bind _

theorem sameFrom_stmts {n m : Nat} (hn : l.later.length ≤ n) (hm : n ≤ m) :
    SameFrom R (stmts source m) (stmts source n) l := by
  induction hm with
  | refl => exact sameFrom_refl _
  | step hm ih => exact (sameFrom_stmts_succ hR (Nat.le_trans hn hm)).trans ih

theorem sameFrom_withinChildren {w w' : Walk γ α}
    (h : ∀ l', l.focus.children = l'.focus :: l'.later → SameFrom R w w' l') :
    SameFrom R (withinChildren source w) (withinChildren source w') l := by
  intro c hc
  rcases hR.firstChild?_cases hc with ⟨-, hfirst⟩ | ⟨c', l', hchildren, -, hfirst, hc'⟩
  · simp only [withinChildren, hfirst]
  · simp only [withinChildren, hfirst, h l' hchildren c' hc']

theorem sameFrom_programUpTo {n m : Nat} (hn : l.focus.children.length ≤ n + 1) (hm : n ≤ m) :
    SameFrom R (programUpTo source m) (programUpTo source n) l := by
  refine sameFrom_get fun c hc => ?_
  split
  · split
    · exact sameFrom_refl _
    · refine sameFrom_withinChildren hR fun l' hl' => sameFrom_stmts hR ?_ hm
      rw [hl', List.length_cons] at hn
      exact Nat.le_of_succ_le_succ hn
  · exact sameFrom_refl _

/-- **The loop over the statements has no bound**: with room for all siblings, it reads a
statement and starts over for as long as there is another to the right. -/
theorem stmts_eq_loop {n : Nat} {c : γ} (hc : R c l) (hn : l.later.length ≤ n) :
    stmts source n c = (do
      let s ← stmt source
      if ← move TreeCursor.nextSibling? then
        let p ← stmts source n
        pure (s :: p)
      else pure [s] : Walk γ Program) c :=
  (sameFrom_stmts_succ hR hn c hc).symm

/-- **A walk over a program has no bound**: instead of the number of children that the
cursor counts, every larger number gives the same, down to where the cursor ends. -/
theorem program_eq_programUpTo {n : Nat} {c : γ} (hc : R c l)
    (hn : TreeCursor.childCount c ≤ n + 1) : program source c = programUpTo source n c := by
  have hcount : l.focus.children.length ≤ TreeCursor.childCount c - 1 + 1 := by
    rw [hR.childCount hc]
    omega
  exact (sameFrom_programUpTo hR hcount (Nat.sub_le_of_le_add hn) c hc).symm

end Walk

end ArithWat
