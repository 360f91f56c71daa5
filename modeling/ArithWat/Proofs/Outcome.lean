import Mathlib.Control.Monad.Basic
import Mathlib.Data.List.Forall2

/-!
# Outcomes of computations that may fail

When a sequence of computations in `Except` succeeds, and how it fails.  The
rules of the grammar, the reading of trees and the check of scopes are such
sequences, and their proofs take them apart with the lemmas of this module.

The last section is for two computations that run side by side: `Rel` says that they end
in the same way.
-/

namespace Except
variable {ε ε' α β : Type}

@[simp] theorem ok_bind (a : α) (f : α → Except ε β) : (Except.ok a >>= f) = f a := rfl

@[simp] theorem error_bind (e : ε) (f : α → Except ε β) :
    ((Except.error e : Except ε α) >>= f) = .error e := rfl

/-- A sequence succeeds exactly when both of its parts do. -/
theorem bind_eq_ok_iff {x : Except ε α} {f : α → Except ε β} {b : β} :
    (x >>= f) = .ok b ↔ ∃ a, x = .ok a ∧ f a = .ok b := by
  cases x with
  | error e => simp
  | ok a => simp

/-- A sequence fails in its first part, or in what comes after it. -/
theorem bind_eq_error_iff {x : Except ε α} {f : α → Except ε β} {e : ε} :
    (x >>= f) = .error e ↔ x = .error e ∨ ∃ a, x = .ok a ∧ f a = .error e := by
  cases x with
  | error e => simp
  | ok a => simp

@[simp] theorem mapError_ok (f : ε → ε') (a : α) : (Except.ok a).mapError f = .ok a := rfl

@[simp] theorem mapError_error (f : ε → ε') (e : ε) :
    (Except.error e : Except ε α).mapError f = .error (f e) := rfl

/-- Rewording errors makes no success. -/
@[simp] theorem mapError_eq_ok_iff {f : ε → ε'} {x : Except ε α} {a : α} :
    x.mapError f = .ok a ↔ x = .ok a := by
  cases x with
  | error e => simp
  | ok a => simp

theorem mapError_eq_error_iff {f : ε → ε'} {x : Except ε α} {e : ε'} :
    x.mapError f = .error e ↔ ∃ e', x = .error e' ∧ f e' = e := by
  cases x with
  | error e => simp
  | ok a => simp

/-- What a list of successes is made of. -/
theorem exists_of_mem_of_mapM_eq_ok {f : α → Except ε β} {xs : List α} {ys : List β} {y : β}
    (h : xs.mapM f = .ok ys) (hy : y ∈ ys) : ∃ x ∈ xs, f x = .ok y := by
  induction xs generalizing ys with
  | nil =>
    cases h
    cases hy
  | cons x xs ih =>
    simp only [List.mapM_cons, bind_eq_ok_iff] at h
    obtain ⟨z, hz, zs, hzs, hys⟩ := h
    cases hys
    rcases List.mem_cons.mp hy with rfl | hy
    · exact ⟨x, List.mem_cons_self, hz⟩
    · obtain ⟨x', hx', hfx'⟩ := ih hzs hy
      exact ⟨x', List.mem_cons_of_mem x hx', hfx'⟩

/-- An outcome with its value and its error changed. -/
def bimap (f : ε → ε') (g : α → β) : Except ε α → Except ε' β
  | ok a => ok (g a)
  | error e => error (f e)

@[simp] theorem bimap_ok (f : ε → ε') (g : α → β) (a : α) : (ok a).bimap f g = ok (g a) := rfl

@[simp] theorem bimap_error (f : ε → ε') (g : α → β) (e : ε) :
    (error e : Except ε α).bimap f g = error (f e) := rfl

theorem bimap_id_eq_error_iff {g : α → β} {x : Except ε α} {e : ε} :
    x.bimap id g = .error e ↔ x = .error e := by
  cases x with
  | error e => simp
  | ok a => simp

theorem bimap_bimap {ε'' γ : Type} (f : ε → ε') (f' : ε' → ε'') (g : α → β) (g' : β → γ)
    (x : Except ε α) : (x.bimap f g).bimap f' g' = x.bimap (f' ∘ f) (g' ∘ g) := by
  cases x with
  | error e => rfl
  | ok a => rfl

/-- A change of outcomes passes through a sequence. -/
theorem bimap_bind {α' β' : Type} {f : ε → ε'} {g : α → α'} {h : β → β'} {x : Except ε α}
    {k : α → Except ε β} {k' : α' → Except ε' β'} (hk : ∀ a, k' (g a) = (k a).bimap f h) :
    (x.bimap f g >>= k') = (x >>= k).bimap f h := by
  cases x with
  | error e => rfl
  | ok a => exact hk a

/-- A change of outcomes passes through a sequence of which the first part is reworded. -/
theorem mapError_bimap_bind {η η' α' β' : Type} {f : ε → ε'} {f' : η → η'} {g : α → α'}
    {g' : β → β'} {x : Except ε α} {h : ε → η} {h' : ε' → η'} {k : α → Except η β}
    {k' : α' → Except η' β'} (hh : ∀ e, h' (f e) = f' (h e))
    (hk : ∀ a, k' (g a) = (k a).bimap f' g') :
    ((x.bimap f g).mapError h' >>= k') = (x.mapError h >>= k).bimap f' g' := by
  cases x with
  | error e => exact congrArg error (hh e)
  | ok a => exact hk a

/-- A change of outcomes passes through the members of a list. -/
theorem mapM_map_bimap {α' β' : Type} {f : ε → ε'} {g : β → β'} {m : α → α'}
    {k : α → Except ε β} {k' : α' → Except ε' β'} (hk : ∀ a, k' (m a) = (k a).bimap f g)
    (xs : List α) : (xs.map m).mapM k' = (xs.mapM k).bimap f (List.map g) := by
  induction xs with
  | nil => rfl
  | cons x xs ih =>
    rw [List.map_cons, List.mapM_cons, List.mapM_cons, hk, ih]
    refine bimap_bind fun b => ?_
    exact bimap_bind fun bs => rfl

/-! ## Two computations side by side -/

variable {α' β' : Type} {E : ε → ε' → Prop} {R : α → α' → Prop} {S : β → β' → Prop}

/-- **Two outcomes are related** if both are values or both are errors, and these are. -/
inductive Rel (E : ε → ε' → Prop) (R : α → α' → Prop) : Except ε α → Except ε' α' → Prop
  | ok {a a'} : R a a' → Rel E R (.ok a) (.ok a')
  | error {e e'} : E e e' → Rel E R (.error e) (.error e')

theorem Rel.mono {R' : α → α' → Prop} {x : Except ε α} {x' : Except ε' α'} (h : Rel E R x x')
    (hR : ∀ a a', R a a' → R' a a') : Rel E R' x x' := by
  cases h with
  | ok h => exact .ok (hR _ _ h)
  | error h => exact .error h

/-- Errors may be reworded on both sides. -/
theorem Rel.mapError {η η' : Type} {E' : η → η' → Prop} {x : Except ε α} {x' : Except ε' α'}
    {f : ε → η} {f' : ε' → η'} (h : Rel E R x x') (hE : ∀ e e', E e e' → E' (f e) (f' e')) :
    Rel E' R (x.mapError f) (x'.mapError f') := by
  cases h with
  | ok h => exact .ok h
  | error h => exact .error (hE _ _ h)

theorem Rel.ok_or_error {x : Except ε α} {x' : Except ε' α'} (h : Rel E R x x') :
    (∃ a a', x = .ok a ∧ x' = .ok a' ∧ R a a') ∨
      ∃ e e', x = .error e ∧ x' = .error e' ∧ E e e' := by
  cases h with
  | ok h => exact .inl ⟨_, _, rfl, rfl, h⟩
  | error h => exact .inr ⟨_, _, rfl, rfl, h⟩

/-- Related values are what the computations come to. -/
theorem Rel.and_ok {x : Except ε α} {x' : Except ε' α'} (h : Rel E R x x') :
    Rel E (fun a a' => R a a' ∧ x = .ok a ∧ x' = .ok a') x x' := by
  cases h with
  | ok h => exact .ok ⟨h, rfl, rfl⟩
  | error h => exact .error h

/-- Related outcomes are handed on to related computations. -/
theorem Rel.bind {x : Except ε α} {x' : Except ε' α'} {k : α → Except ε β}
    {k' : α' → Except ε' β'} (h : Rel E R x x') (hk : ∀ a a', R a a' → Rel E S (k a) (k' a')) :
    Rel E S (x >>= k) (x' >>= k') := by
  cases h with
  | ok h => exact hk _ _ h
  | error h => exact .error h

/-- Related lists are gone through in step. -/
theorem Rel.mapM {k : α → Except ε β} {k' : α' → Except ε' β'} {xs : List α} {xs' : List α'}
    (h : List.Forall₂ R xs xs') (hk : ∀ a a', R a a' → Rel E S (k a) (k' a')) :
    Rel E (List.Forall₂ S) (xs.mapM k) (xs'.mapM k') := by
  induction h with
  | nil => exact .ok .nil
  | cons hx _ ih =>
    rw [List.mapM_cons, List.mapM_cons]
    refine (hk _ _ hx).bind fun b b' hb => ?_
    exact ih.bind fun bs bs' hbs => .ok (.cons hb hbs)

end Except
