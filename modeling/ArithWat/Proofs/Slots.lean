import ArithWat.Code.Render
import ArithWat.Proofs.CodeMeaning
import ArithWat.Proofs.Scanning

/-!
# Names, slots and calls

The names in a program, and the slots that its body declares and its code touches.  A body
declares each variable once, in the order of first definitions (`Program.names_scope`).  The
code of an expression reads the slots of its names from left to right (`Expr.slots_code`), so
the code of a program touches the scratch slot and slots of names in the program.  A call in
code has the name and the number of arguments of a builtin
(`Program.callsBuiltin_of_mem_code`).  A slot is written as `$` and the name, which for names of
a script is never the name of the scratch slot (`Slot.wat_inj`).
-/

namespace ArithWat

/-! ## Names -/

/-- The names that an expression refers to, from the left. -/
def Expr.names : Expr → List String
  | num _ => []
  | ref name _ => [name]
  | binary _ l r => l.names ++ r.names
  | call1 _ a => a.names
  | call2 _ a b => a.names ++ b.names

/-- The names in a statement. -/
def Stmt.names : Stmt → List String
  | define name value => name :: value.names
  | expr value => value.names

namespace Program

/-- **The names in a program**, those that are set and those that are referred to. -/
def names (p : Program) : List String := p.flatMap Stmt.names

/-- The names that a program sets, once for each definition. -/
def defined : Program → List String
  | [] => []
  | .define name _ :: p => name :: defined p
  | .expr _ :: p => defined p

theorem defined_sublist_names (p : Program) : p.defined.Sublist p.names := by
  induction p with
  | nil => exact .slnil
  | cons s p ih =>
    cases s with
    | define name value => exact (ih.trans (List.sublist_append_right value.names _)).cons_cons name
    | expr value => exact ih.trans (List.sublist_append_right value.names _)

end Program

/-! ## Declared slots -/

/-- A scope without repetitions grows by a name as the list of all names does. -/
theorem Scope.define_eraseDups (xs : List String) (x : String) :
    define ⟨xs.eraseDups⟩ x = ⟨(xs ++ [x]).eraseDups⟩ := by
  rw [define, isDefined, List.eraseDups_append, List.contains_eq_mem]
  by_cases hx : x ∈ xs
  · rw [if_pos (by simpa using hx)]
    simp [List.removeAll, hx]
  · rw [if_neg (by simpa using hx)]
    simp [List.removeAll, hx, List.eraseDups_cons]

theorem Program.scopeFrom_eraseDups (p : Program) (xs : List String) :
    p.scopeFrom ⟨xs.eraseDups⟩ = ⟨(xs ++ p.defined).eraseDups⟩ := by
  induction p generalizing xs with
  | nil => rw [scopeFrom, defined, List.append_nil]
  | cons s p ih =>
    cases s with
    | define name value =>
      rw [scopeFrom, Scope.define_eraseDups, ih, defined, List.append_assoc, List.singleton_append]
    | expr value => exact ih xs

/-- **A program declares each variable once**, in the order of first definitions. -/
theorem Program.names_scope (p : Program) : p.scope.names = p.defined.eraseDups :=
  congrArg Scope.names (p.scopeFrom_eraseDups [])

theorem Scope.nodup_define {s : Scope} (h : s.names.Nodup) (x : String) :
    (s.define x).names.Nodup := by
  unfold define
  split
  · exact h
  · rename_i hx
    have hx : x ∉ s.names := by simpa [isDefined] using hx
    refine List.nodup_append.mpr ⟨h, by simp, ?_⟩
    rintro y hy z hz rfl
    rw [List.mem_singleton.mp hz] at hy
    exact hx hy

theorem Program.nodup_scopeFrom (p : Program) {scope : Scope} (h : scope.names.Nodup) :
    (p.scopeFrom scope).names.Nodup := by
  induction p generalizing scope with
  | nil => exact h
  | cons s p ih =>
    cases s with
    | define name value => exact ih (Scope.nodup_define h name)
    | expr value => exact ih h

/-! ## Slots in code -/

/-- The slot that an instruction reads or sets. -/
def Instr.slot? : Instr → Option Slot
  | get slot | set slot => some slot
  | _ => none

/-- The code of an expression reads the slots of its names, in their order. -/
theorem Expr.slots_code (e : Expr) : e.code.filterMap Instr.slot? = e.names.map .named := by
  induction e with
  | num v => rfl
  | ref name span => rfl
  | binary op l r ihl ihr =>
    rw [code, names, List.filterMap_append, List.filterMap_append, ihl, ihr, List.map_append]
    exact List.append_nil _
  | call1 f a iha =>
    rw [code, names, List.filterMap_append, iha]
    exact List.append_nil _
  | call2 f a b iha ihb =>
    rw [code, names, List.filterMap_append, List.filterMap_append, iha, ihb, List.map_append]
    exact List.append_nil _

/-- The slots of a program's code are the scratch slot and those of names in the program. -/
theorem Program.eq_scratch_or_of_mem_code {p : Program} {i : Instr} {slot : Slot}
    (hi : i ∈ p.code) (hslot : i.slot? = some slot) :
    slot = .scratch ∨ ∃ x ∈ p.names, slot = .named x := by
  rw [code_eq_flatMap] at hi
  obtain ⟨s, hs, hcode⟩ := List.mem_flatMap.mp hi
  have hnames : ∀ x ∈ s.names, x ∈ p.names := fun x hx => List.mem_flatMap.mpr ⟨s, hs, hx⟩
  rw [s.code_eq, List.mem_append, List.mem_singleton] at hcode
  rcases hcode with hvalue | rfl
  · have hmem : slot ∈ s.value.code.filterMap Instr.slot? :=
      List.mem_filterMap.mpr ⟨i, hvalue, hslot⟩
    rw [Expr.slots_code, List.mem_map] at hmem
    obtain ⟨x, hx, rfl⟩ := hmem
    refine .inr ⟨x, hnames x ?_, rfl⟩
    cases s with
    | define name value => exact List.mem_cons_of_mem name hx
    | expr value => exact hx
  · cases hslot
    cases s with
    | define name value => exact .inr ⟨name, hnames name List.mem_cons_self, rfl⟩
    | expr value => exact .inl rfl

/-! ## Calls in code -/

/-- An instruction that, if it is a call, is one of a builtin with its number of arguments. -/
def Instr.CallsBuiltin : Instr → Prop
  | call func arity => ∃ f : Builtin, f.name = func ∧ f.arity = arity
  | _ => True

/-- The code of an expression calls builtins only. -/
theorem Expr.callsBuiltin_of_mem_code {e : Expr} {i : Instr} (hi : i ∈ e.code) :
    i.CallsBuiltin := by
  induction e with
  | num v | ref name span =>
    cases List.mem_singleton.mp hi
    trivial
  | binary op l r ihl ihr =>
    simp only [code, List.mem_append, List.mem_singleton] at hi
    rcases hi with (hi | hi) | rfl
    · exact ihl hi
    · exact ihr hi
    · trivial
  | call1 f a iha =>
    simp only [code, List.mem_append, List.mem_singleton] at hi
    rcases hi with hi | rfl
    · exact iha hi
    · exact ⟨.unary f, rfl, rfl⟩
  | call2 f a b iha ihb =>
    simp only [code, List.mem_append, List.mem_singleton] at hi
    rcases hi with (hi | hi) | rfl
    · exact iha hi
    · exact ihb hi
    · exact ⟨.binary f, rfl, rfl⟩

/-- **The code of a program calls builtins only**, each with its number of arguments. -/
theorem Program.callsBuiltin_of_mem_code {p : Program} {i : Instr} (hi : i ∈ p.code) :
    i.CallsBuiltin := by
  rw [code_eq_flatMap] at hi
  obtain ⟨s, -, hcode⟩ := List.mem_flatMap.mp hi
  rw [s.code_eq, List.mem_append, List.mem_singleton] at hcode
  rcases hcode with hvalue | rfl
  · exact Expr.callsBuiltin_of_mem_code hvalue
  · trivial

/-! ## Named slots -/

/-- The slot of a variable that has a name of a script, or the scratch slot. -/
def Slot.IsNamed : Slot → Prop
  | scratch => True
  | named x => Scan.isName x.toList = true

/-- **All names in a program are names of a script.** -/
def Program.IsNamed (p : Program) : Prop := ∀ x ∈ p.names, Scan.isName x.toList = true

instance : DecidablePred Program.IsNamed := fun p =>
  inferInstanceAs (Decidable (∀ x ∈ p.names, _))

theorem Program.IsNamed.slot {p : Program} (hp : p.IsNamed) {i : Instr} (hi : i ∈ p.code) :
    ∀ slot ∈ i.slot?, slot.IsNamed := by
  intro slot hslot
  rcases eq_scratch_or_of_mem_code hi hslot with rfl | ⟨x, hx, rfl⟩
  · trivial
  · exact hp x hx

theorem Program.IsNamed.local {p : Program} (hp : p.IsNamed) :
    ∀ slot ∈ p.body.locals, slot.IsNamed := by
  rw [body, names_scope]
  refine List.forall_mem_cons.mpr ⟨trivial, fun slot hslot => ?_⟩
  obtain ⟨x, hx, rfl⟩ := List.mem_map.mp hslot
  exact hp x (p.defined_sublist_names.mem (List.mem_eraseDups.mp hx))

/-- A slot name that begins with two dollar signs is that of no variable. -/
theorem Slot.wat_inj {s t : Slot} (hs : s.IsNamed) (ht : t.IsNamed) (h : s.wat = t.wat) :
    s = t := by
  have hlast : ∀ x : String, Scan.isName x.toList = true → "$$last" ≠ "$" ++ x := by
    intro x hx h
    have hsplit : "$" ++ "$last" = "$" ++ x := h
    rw [← (String.append_right_inj "$").mp hsplit] at hx
    revert hx
    decide
  rcases s with _ | x <;> rcases t with _ | y
  · rfl
  · exact absurd h (hlast y ht)
  · exact absurd h.symm (hlast x hs)
  · exact congrArg named ((String.append_right_inj "$").mp h)

end ArithWat
