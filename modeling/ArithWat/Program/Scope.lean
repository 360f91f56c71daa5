import ArithWat.Error
import ArithWat.Program

/-!
# Scopes

The variables that have been set so far, in the order in which they first were.
`Program.check` walks a program once from the front: a variable may be read only
after a statement that sets it, so its own value cannot read it for the first
time.
-/

namespace ArithWat

/-- The variables that are set, without repetition, in the order of their first
definition. -/
structure Scope where
  names : List String
  deriving DecidableEq, Repr

namespace Scope

/-- The scope with no variable. -/
def empty : Scope := ⟨[]⟩

/-- Whether a variable is set. -/
def isDefined (s : Scope) (name : String) : Bool := s.names.contains name

/-- Sets a variable. -/
def define (s : Scope) (name : String) : Scope :=
  if s.isDefined name then s else ⟨s.names ++ [name]⟩

@[simp] theorem isDefined_define (s : Scope) (x y : String) :
    (s.define x).isDefined y = (s.isDefined y || y == x) := by
  unfold define
  split
  · rename_i h
    by_cases hy : y = x
    · subst hy; simp [h]
    · simp [hy]
  · simp [isDefined, List.contains_eq_mem]
    grind

end Scope

/-- The first variable of an expression, from the left, that is not set. -/
def Expr.check (scope : Scope) : Expr → Except ReferenceError Unit
  | num _ => .ok ()
  | ref name span => if scope.isDefined name then .ok () else .error ⟨name, span⟩
  | binary _ l r => do l.check scope; r.check scope
  | call1 _ a => a.check scope
  | call2 _ a b => do a.check scope; b.check scope

namespace Program

/-- Checks that every variable is set before it is read, given those already set. -/
def checkFrom (scope : Scope) : Program → Except ReferenceError Unit
  | [] => .ok ()
  | .define name value :: p => do value.check scope; checkFrom (scope.define name) p
  | .expr value :: p => do value.check scope; checkFrom scope p

/-- **Checks that every variable is set before it is read.** -/
def check (p : Program) : Except ReferenceError Unit := checkFrom .empty p

/-- The scope after a program. -/
def scopeFrom (scope : Scope) : Program → Scope
  | [] => scope
  | .define name _ :: p => scopeFrom (scope.define name) p
  | .expr _ :: p => scopeFrom scope p

/-- **The variables that a program sets**, in the order of their first definition. -/
def scope (p : Program) : Scope := scopeFrom .empty p

end Program

end ArithWat
