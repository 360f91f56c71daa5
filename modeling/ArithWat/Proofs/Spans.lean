import ArithWat.Program
import ArithWat.Token
import ArithWat.Tree

/-!
# Changing spans

A lexeme has a span, a tree one at every node, and a program one at every reference to a
variable.  `mapSpan` and `mapSpans` change them all.  A change of spans that respects
covers (`Span.RespectsCover`) can be made before or after a node is built
(`Tree.spanning_mapSpans`).

`unspanned` forgets the spans of a program: two programs are equal up to spans if they are
the same without them.
-/

namespace ArithWat

/-- The span from one lexeme to another goes over to the span from the one to the other. -/
def Span.RespectsCover (f : Span → Span) : Prop :=
  ∀ first last, f (first.cover last) = (f first).cover (f last)

/-- The lexeme with its span changed. -/
def Lexeme.mapSpan (f : Span → Span) (l : Lexeme) : Lexeme := { l with span := f l.span }

@[simp] theorem Lexeme.token_mapSpan (f : Span → Span) (l : Lexeme) :
    (l.mapSpan f).token = l.token := rfl

/-! ## Trees -/

namespace Tree
variable {κ : Type} (f : Span → Span)

mutual

/-- The tree with its spans changed. -/
def mapSpans : Tree κ → Tree κ
  | node k s ts => node k (f s) (forestMapSpans ts)

/-- The trees with their spans changed. -/
def forestMapSpans : List (Tree κ) → List (Tree κ)
  | [] => []
  | t :: ts => t.mapSpans :: forestMapSpans ts

end

theorem forestMapSpans_eq (ts : List (Tree κ)) : forestMapSpans f ts = ts.map (mapSpans f) := by
  induction ts with
  | nil => rfl
  | cons t ts ih => rw [forestMapSpans, ih, List.map_cons]

@[simp] theorem kind_mapSpans (t : Tree κ) : (t.mapSpans f).kind = t.kind := by
  cases t with | node k s ts => rfl

@[simp] theorem span_mapSpans (t : Tree κ) : (t.mapSpans f).span = f t.span := by
  cases t with | node k s ts => rfl

@[simp] theorem children_mapSpans (t : Tree κ) :
    (t.mapSpans f).children = t.children.map (mapSpans f) := by
  cases t with | node k s ts => exact forestMapSpans_eq f ts

mutual

@[simp] theorem height_mapSpans : (t : Tree κ) → (t.mapSpans f).height = t.height
  | node _ _ ts => congrArg (· + 1) (forestHeight_mapSpans ts)

theorem forestHeight_mapSpans : (ts : List (Tree κ)) →
    forestHeight (forestMapSpans f ts) = forestHeight ts
  | [] => rfl
  | t :: ts => by
    rw [forestMapSpans, forestHeight, forestHeight, height_mapSpans t, forestHeight_mapSpans ts]

end

/-- **Spans can be changed before or after a node is built over its children.** -/
theorem spanning_mapSpans {f : Span → Span} (hf : Span.RespectsCover f) (k : κ) (first : Tree κ)
    (more : List (Tree κ)) :
    spanning k (first.mapSpans f) (more.map (mapSpans f)) =
      (spanning k first more).mapSpans f := by
  have hlast : ((first :: more).map (mapSpans f)).getLastD (first.mapSpans f) =
      ((first :: more).getLastD first).mapSpans f := by
    rw [List.getLastD_eq_getLast?, List.getLastD_eq_getLast?, List.getLast?_map]
    cases (first :: more).getLast? with
    | none => rfl
    | some last => rfl
  rw [List.map_cons] at hlast
  rw [spanning, hlast, span_mapSpans, span_mapSpans, ← hf, spanning, mapSpans, forestMapSpans_eq,
    List.map_cons]

end Tree

/-! ## Programs -/

/-- The expression with the spans of its references changed. -/
def Expr.mapSpans (f : Span → Span) : Expr → Expr
  | num v => num v
  | ref name span => ref name (f span)
  | binary op l r => binary op (l.mapSpans f) (r.mapSpans f)
  | call1 g a => call1 g (a.mapSpans f)
  | call2 g a b => call2 g (a.mapSpans f) (b.mapSpans f)

/-- The statement with the spans of its references changed. -/
def Stmt.mapSpans (f : Span → Span) : Stmt → Stmt
  | define name value => define name (value.mapSpans f)
  | expr value => expr (value.mapSpans f)

/-- The program with the spans of its references changed. -/
def Program.mapSpans (f : Span → Span) (p : Program) : Program := p.map (·.mapSpans f)

/-- An expression without its spans. -/
def Expr.unspanned (e : Expr) : Expr := e.mapSpans fun _ => default

theorem Expr.unspanned_binary (op : ArithOp) (l r : Expr) :
    (binary op l r).unspanned = binary op l.unspanned r.unspanned := rfl

theorem Expr.unspanned_call1 (f : UnaryBuiltin) (a : Expr) :
    (call1 f a).unspanned = call1 f a.unspanned := rfl

theorem Expr.unspanned_call2 (f : BinaryBuiltin) (a b : Expr) :
    (call2 f a b).unspanned = call2 f a.unspanned b.unspanned := rfl

/-- A statement without its spans. -/
def Stmt.unspanned (s : Stmt) : Stmt := s.mapSpans fun _ => default

theorem Stmt.unspanned_define (name : String) (value : Expr) :
    (define name value).unspanned = define name value.unspanned := rfl

theorem Stmt.unspanned_expr (value : Expr) : (expr value).unspanned = expr value.unspanned := rfl

/-- **A program without its spans.** -/
def Program.unspanned (p : Program) : Program := p.mapSpans fun _ => default

theorem Program.unspanned_cons (s : Stmt) (p : Program) :
    unspanned (s :: p) = s.unspanned :: unspanned p := rfl

end ArithWat
