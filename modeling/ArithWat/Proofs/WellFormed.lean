import ArithWat.Proofs.Expressible
import ArithWat.Proofs.Slots
import Mathlib.Data.List.Nodup

/-!
# Compiled bodies are well formed

What a body must satisfy to be accepted as the body of a function in its module, and that the
body of every script that compiles does (`Script.wellFormed_of_compile`).  The parts come from
different stages: names and numbers are those of a script because the program is expressible,
slots are declared because the scope was checked, and calls fit because code calls builtins with
their numbers of arguments, which are the numbers of parameters that the module imports them with
(`Body.exists_moduleText_eq`).
-/

namespace ArithWat

/-! ## Imports -/

/-- The functions that a module imports, with their numbers of parameters. -/
def importTable : List (String × Nat) :=
  [("print", 1), ("abs", 1), ("min", 2), ("max", 2), ("pow", 2)]

/-- The line that imports a function with some parameters, all of them words. -/
def importText (imports name : String) (params : Nat) : String :=
  "  (func $" ++ name ++ " (import \"" ++ imports ++ "\" \"" ++ name ++ "\") (param " ++
    " ".intercalate (List.replicate params "i32") ++ ") (result i32))\n"

theorem Builtin.importLine_eq (f : Builtin) (imports : String) :
    f.importLine imports = importText imports f.name f.arity := rfl

/-- The lines that import the functions of the table. -/
def importSection (imports : String) : String :=
  String.join (importTable.map fun (name, n) => importText imports name n)

/-- The module imports every builtin, with its number of arguments and no other. -/
theorem Builtin.mem_importTable_iff (f : Builtin) (n : Nat) :
    (f.name, n) ∈ importTable ↔ n = f.arity := by
  rcases f with (_ | _) | (_ | _ | _) <;>
    simp [importTable, name, arity, UnaryBuiltin.name, BinaryBuiltin.name]

/-- **A module begins with its imports.** -/
theorem Body.exists_moduleText_eq (b : Body) (names : ModuleNames) :
    ∃ rest, b.moduleText names = "(module\n" ++ importSection names.imports ++ rest := by
  have himports : String.join (Builtin.all.map (·.importLine names.imports)) =
      importSection names.imports := by
    simp only [Builtin.importLine_eq]
    rfl
  rw [moduleText, himports]
  simp only [String.append_assoc]
  exact ⟨_, rfl⟩

/-! ## Well-formed bodies -/

/-- **A well-formed body.** -/
structure Body.WellFormed (b : Body) : Prop where
  /-- No two slots are written alike. -/
  distinct : (b.locals.map Slot.wat).Nodup
  /-- Every slot that is read or set is declared. -/
  declared : ∀ i ∈ b.instrs, ∀ slot ∈ i.slot?, slot ∈ b.locals
  /-- Every call is one of an imported function, with as many arguments as that has
  parameters. -/
  imported : ∀ func arity, Instr.call func arity ∈ b.instrs →
    ∀ n, (func, n) ∈ importTable ↔ n = arity
  /-- Every constant is in the range of a word, read with or without a sign. -/
  inRange : ∀ v, Instr.const v ∈ b.instrs → -2147483648 ≤ v ∧ v ≤ 4294967295

/-- An expression that passes the check refers to variables that are set. -/
theorem Expr.isDefined_of_check {e : Expr} {scope : Scope} (h : e.check scope = .ok ()) :
    ∀ x ∈ e.names, scope.isDefined x = true := by
  induction e with
  | num v => exact List.forall_mem_nil _
  | ref name span =>
    by_cases hname : scope.isDefined name = true
    · exact List.forall_mem_singleton.mpr hname
    · rw [check, if_neg hname] at h
      cases h
  | binary op l r ihl ihr =>
    obtain ⟨_, hl, hr⟩ := Except.bind_eq_ok_iff.mp h
    exact List.forall_mem_append.mpr ⟨ihl hl, ihr hr⟩
  | call1 f a iha => exact iha h
  | call2 f a b iha ihb =>
    obtain ⟨_, ha, hb⟩ := Except.bind_eq_ok_iff.mp h
    exact List.forall_mem_append.mpr ⟨iha ha, ihb hb⟩

/-- All names in a program that passes the check are set when the program ends. -/
theorem Program.isDefined_of_checkFrom {p : Program} {scope : Scope}
    (h : p.checkFrom scope = .ok ()) : ∀ x ∈ p.names, (p.scopeFrom scope).isDefined x = true := by
  induction p generalizing scope with
  | nil => exact List.forall_mem_nil _
  | cons s p ih =>
    cases s with
    | define name value =>
      obtain ⟨_, hvalue, hrest⟩ := Except.bind_eq_ok_iff.mp h
      have hlater := within_scopeFrom p (scope.define name)
      refine List.forall_mem_append.mpr ⟨List.forall_mem_cons.mpr ⟨?_, fun x hx => ?_⟩, ih hrest⟩
      · exact hlater name (by simp)
      · exact hlater x (scope.within_define name x (Expr.isDefined_of_check hvalue x hx))
    | expr value =>
      obtain ⟨_, hvalue, hrest⟩ := Except.bind_eq_ok_iff.mp h
      refine List.forall_mem_append.mpr ⟨fun x hx => ?_, ih hrest⟩
      exact within_scopeFrom p scope x (Expr.isDefined_of_check hvalue x hx)

theorem Program.declared_of_check {p : Program} (h : p.check = .ok ()) :
    ∀ i ∈ p.body.instrs, ∀ slot ∈ i.slot?, slot ∈ p.body.locals := by
  intro i hi slot hslot
  rcases eq_scratch_or_of_mem_code hi hslot with rfl | ⟨x, hx, rfl⟩
  · exact List.mem_cons_self
  · exact (p.named_mem_locals_iff x).mpr (isDefined_of_checkFrom h x hx)

/-! ## Expressible programs -/

theorem Expr.IsPlain.isName {e : Expr} (he : e.IsPlain) :
    ∀ x ∈ e.names, Scan.isName x.toList = true := by
  induction e with
  | num v => exact List.forall_mem_nil _
  | ref name span => exact List.forall_mem_singleton.mpr he
  | binary op l r ihl ihr => exact List.forall_mem_append.mpr ⟨ihl he.1, ihr he.2.1⟩
  | call1 f a iha => exact iha he
  | call2 f a b iha ihb => exact List.forall_mem_append.mpr ⟨iha he.1, ihb he.2⟩

theorem Program.IsExpressible.isNamed {p : Program} (hp : p.IsExpressible) : p.IsNamed := by
  intro x hx
  obtain ⟨s, hs, hxs⟩ := List.mem_flatMap.mp hx
  have hexpr := hp s hs
  cases s with
  | define name value =>
    rcases List.mem_cons.mp hxs with rfl | hxs
    · exact hexpr.1
    · exact hexpr.2.1.isName x hxs
  | expr value => exact hexpr.1.isName x hxs

theorem Expr.IsPlain.inRange {e : Expr} (he : e.IsPlain) {v : Int} (hv : Instr.const v ∈ e.code) :
    Literal.least ≤ v ∧ v ≤ Literal.greatest := by
  induction e with
  | num w =>
    cases List.mem_singleton.mp hv
    exact he
  | ref name span => cases List.mem_singleton.mp hv
  | binary op l r ihl ihr =>
    simp only [code, List.mem_append, List.mem_singleton, reduceCtorEq, or_false] at hv
    rcases hv with hv | hv
    · exact ihl he.1 hv
    · exact ihr he.2.1 hv
  | call1 f a iha =>
    simp only [code, List.mem_append, List.mem_singleton, reduceCtorEq, or_false] at hv
    exact iha he hv
  | call2 f a b iha ihb =>
    simp only [code, List.mem_append, List.mem_singleton, reduceCtorEq, or_false] at hv
    rcases hv with hv | hv
    · exact iha he.1 hv
    · exact ihb he.2 hv

theorem Program.IsExpressible.inRange {p : Program} (hp : p.IsExpressible) {v : Int}
    (hv : Instr.const v ∈ p.code) : Literal.least ≤ v ∧ v ≤ Literal.greatest := by
  rw [code_eq_flatMap] at hv
  obtain ⟨s, hs, hvs⟩ := List.mem_flatMap.mp hv
  have hexpr := hp s hs
  simp only [s.code_eq, List.mem_append, List.mem_singleton, reduceCtorEq, or_false] at hvs
  cases s with
  | define name value => exact hexpr.2.1.inRange hvs
  | expr value => exact hexpr.1.inRange hvs

/-- **The body of an expressible program that passes the check is well formed.** -/
theorem Program.IsExpressible.wellFormed_body {p : Program} (hp : p.IsExpressible)
    (hcheck : p.check = .ok ()) : p.body.WellFormed where
  distinct := by
    have hnodup : p.body.locals.Nodup := by
      have hnames : p.scope.names.Nodup := p.nodup_scopeFrom List.nodup_nil
      exact List.nodup_cons.mpr ⟨by simp, hnames.map fun _ _ h => Slot.named.inj h⟩
    refine List.Nodup.map_on (fun s hs t ht h => ?_) hnodup
    exact Slot.wat_inj (hp.isNamed.local s hs) (hp.isNamed.local t ht) h
  declared := declared_of_check hcheck
  imported func arity hmem := by
    obtain ⟨f, rfl, rfl⟩ := callsBuiltin_of_mem_code hmem
    exact f.mem_importTable_iff
  inRange _ hv := hp.inRange hv

theorem Script.compile_eq_ok {source : String} {c : Body} (h : compile source = .ok c) :
    ∃ p, parse source = .ok p ∧ p.check = .ok () ∧ c = p.body := by
  simp only [compile, Except.bind_eq_ok_iff, Except.mapError_eq_ok_iff] at h
  obtain ⟨p, hparse, ⟨⟩, hcheck, hbody⟩ := h
  exact ⟨p, hparse, hcheck, (Except.ok.inj hbody).symm⟩

/-- **Every script that compiles has a well-formed body.**  The body declares the scratch slot
and, once each, the variables that the program sets, in the order of their first definitions.
Whatever names are chosen for the module around it, the module begins with imports of the five
functions that calls can name. -/
theorem Script.wellFormed_of_compile {source : String} {c : Body} (h : compile source = .ok c) :
    ∃ p, parse source = .ok p ∧ c.locals = .scratch :: p.defined.eraseDups.map .named ∧
      c.WellFormed ∧ ∀ names, ∃ rest,
        c.moduleText names = "(module\n" ++ importSection names.imports ++ rest := by
  obtain ⟨p, hparse, hcheck, rfl⟩ := compile_eq_ok h
  refine ⟨p, hparse, ?_, ?_, p.body.exists_moduleText_eq⟩
  · rw [Program.body, Program.names_scope]
  · exact (isExpressible_of_parse hparse).wellFormed_body hcheck

/-- A script that sets a variable twice, uses another in a call and ends with the greatest
literal. -/
theorem Script.wellFormed_of_compile_redefined :
    let source := "b = 1\na = max(b, -2)\nb = a * 4294967295"
    let c : Body :=
      { locals := [.scratch, .named "b", .named "a"]
        instrs := [.const 1, .set (.named "b"), .get (.named "b"), .const (-2),
          .call "max" 2, .set (.named "a"), .get (.named "a"), .const 4294967295,
          .arith .mul, .set (.named "b")] }
    compile source = .ok c ∧ c.WellFormed := by
  intro source c
  have hcompile : compile source = .ok c := by decide +kernel
  obtain ⟨-, -, -, hwell, -⟩ := wellFormed_of_compile hcompile
  exact ⟨hcompile, hwell⟩

end ArithWat
