import ArithWat.Proofs.Slots
import ArithWat.Proofs.Spans
import Mathlib.Data.List.Basic

/-!
# Code determines its program

Neither the ends of statements nor the operands of an operation are marked in code, but code
can be run on expressions instead of values: each instruction then builds a bigger expression
from those on the stack, and a store takes a statement off it (`Program.decode`).  What is
rebuilt is the program without its spans (`Program.decode_code`).

The text of a body determines its code as long as variables have names of a script.  Lines end
at line feeds, the word that a line begins with tells declarations from instructions and the
instructions from each other (`Instr.wat_inj`), and `$$last` is the name of no variable.
-/

theorem List.eq_of_map_eq_map {α β : Type} {f : α → β} {xs ys : List α}
    (hf : ∀ x ∈ xs, ∀ y ∈ ys, f x = f y → x = y) (h : xs.map f = ys.map f) : xs = ys := by
  induction xs generalizing ys with
  | nil => exact (List.map_eq_nil_iff.mp h.symm).symm
  | cons x xs ih =>
    rcases ys with _ | ⟨y, ys⟩
    · cases h
    · obtain ⟨hhead, htail⟩ := List.cons.inj h
      have hxy := hf x List.mem_cons_self y List.mem_cons_self hhead
      have hrest := ih (fun a ha b hb => hf a (.tail x ha) b (.tail y hb)) htail
      rw [hxy, hrest]

namespace ArithWat

/-! ## Running code on expressions -/

/-- The expressions on the stack after an instruction that takes its operands from there.  A
store is none of these. -/
def Instr.rebuild : Instr → List Expr → Option (List Expr)
  | const v, stack => some (.num v :: stack)
  | get (.named x), stack => some (.ref x default :: stack)
  | arith op, r :: l :: stack => some (.binary op l r :: stack)
  | call func arity, stack =>
    match Builtin.find? func arity, stack with
    | some (.unary f), a :: stack => some (.call1 f a :: stack)
    | some (.binary f), b :: a :: stack => some (.call2 f a b :: stack)
    | _, _ => none
  | _, _ => none

/-- The statement that stores an expression in a slot. -/
def Slot.stmt : Slot → Expr → Stmt
  | scratch, e => .expr e
  | named x, e => .define x e

namespace Program

/-- The statements of code that is entered with some expressions on the stack. -/
def decodeFrom (stack : List Expr) : List Instr → Option Program
  | [] => if stack = [] then some [] else none
  | .set slot :: is =>
    match stack with
    | [e] => (decodeFrom [] is).map (slot.stmt e :: ·)
    | _ => none
  | i :: is => (i.rebuild stack).bind (decodeFrom · is)

/-- **The program that some code rebuilds**, if it rebuilds one. -/
def decode (is : List Instr) : Option Program := decodeFrom [] is

end Program

/-- **The code of an expression puts the expression on the stack**, whatever is there and
whatever code follows. -/
theorem Expr.decodeFrom_code (e : Expr) (stack : List Expr) (is : List Instr) :
    Program.decodeFrom stack (e.code ++ is) = Program.decodeFrom (e.unspanned :: stack) is := by
  induction e generalizing stack is with
  | num v => rfl
  | ref name span => rfl
  | binary op l r ihl ihr =>
    rw [code, List.append_assoc, List.append_assoc, ihl, ihr]
    rfl
  | call1 f a iha =>
    rw [code, List.append_assoc, iha]
    simp only [List.singleton_append, Program.decodeFrom, Instr.rebuild, Builtin.find?_unary,
      Option.bind_some]
    rfl
  | call2 f a b iha ihb =>
    rw [code, List.append_assoc, List.append_assoc, iha, ihb]
    simp only [List.singleton_append, Program.decodeFrom, Instr.rebuild, Builtin.find?_binary,
      Option.bind_some]
    rfl

theorem Stmt.stmt_target (s : Stmt) : s.target.stmt s.value.unspanned = s.unspanned := by
  cases s <;> rfl

/-- **The code of a program is decoded to the program**, without its spans. -/
theorem Program.decode_code (p : Program) : decode p.code = some p.unspanned := by
  induction p with
  | nil => rfl
  | cons s p ih =>
    have hstmt : decode (code (s :: p)) =
        (decode (code p)).map (s.target.stmt s.value.unspanned :: ·) := by
      rw [code_cons, s.code_eq, List.append_assoc, decode, Expr.decodeFrom_code]
      rfl
    rw [hstmt, ih, s.stmt_target]
    rfl

theorem Program.unspanned_eq_of_code_eq {p q : Program} (h : p.code = q.code) :
    p.unspanned = q.unspanned := by
  have hdecode := congrArg decode h
  rw [decode_code, decode_code] at hdecode
  exact Option.some.inj hdecode

/-! ## The words of a text -/

/-- The characters of a word. -/
def isWordPart (c : Char) : Bool := c ≠ ' ' && c ≠ ')'

/-- The word that a line begins with. -/
def firstWord (line : String) : List Char := line.toList.takeWhile isWordPart

theorem firstWord_append {word rest : String} (hword : word.toList.all isWordPart = true)
    (hrest : ∀ c ∈ rest.toList.head?, isWordPart c = false) :
    firstWord (word ++ rest) = word.toList := by
  have hstop : rest.toList.takeWhile isWordPart = [] := by
    rcases hchars : rest.toList with _ | ⟨c, cs⟩
    · rfl
    · have hc : isWordPart c = false := hrest c (by rw [hchars]; rfl)
      rw [List.takeWhile_cons, hc, if_neg Bool.false_ne_true]
  rw [firstWord, String.toList_append, List.takeWhile_append_of_pos (List.all_eq_true.mp hword),
    hstop, List.append_nil]

/-- The words that instructions begin with. -/
inductive Opcode where
  | const
  | get
  | set
  | arith (op : ArithOp)
  | call
  deriving DecidableEq

/-- The text of such a word. -/
def Opcode.text : Opcode → String
  | const => "(i32.const"
  | get => "(local.get"
  | set => "(local.set"
  | arith op => "(" ++ op.mnemonic
  | call => "(call"

theorem Opcode.text_inj {o o' : Opcode} (h : o.text = o'.text) : o = o' := by
  rcases o with _ | _ | _ | (_ | _ | _) | _ <;> rcases o' with _ | _ | _ | (_ | _ | _) | _ <;>
    revert h <;> decide

theorem Builtin.name_inj {f g : Builtin} (h : f.name = g.name) : f = g := by
  rcases f with f | f <;> rcases g with g | g <;> cases f <;> cases g <;> revert h <;> decide

/-- The text of an integer determines it: it is read back from its digits, and only a negative
one has a sign. -/
theorem eq_of_repr_eq {v w : Int} (h : v.repr = w.repr) : v = w := by
  have hdigits : ∀ {m n : Nat}, m.repr = n.repr → m = n := by
    intro m n hrepr
    have htext := congrArg String.toList hrepr
    rw [Nat.toList_repr, Nat.toList_repr] at htext
    rw [← Nat.ofDigitChars_ten_toDigits (n := m), htext, Nat.ofDigitChars_ten_toDigits]
  have hsign : ∀ m n : Nat, m.repr ≠ "-" ++ n.repr := by
    intro m n hrepr
    have hmem : '-' ∈ Nat.toDigits 10 m := by
      rw [← Nat.toList_repr, hrepr]
      simp
    exact absurd (Nat.isDigit_of_mem_toDigits (by decide) (by decide) hmem) (by decide)
  rw [Int.repr_eq_if, Int.repr_eq_if] at h
  split at h <;> split at h
  · have hnat := hdigits h
    omega
  · exact absurd h (hsign _ _)
  · exact absurd h.symm (hsign _ _)
  · have hnat := hdigits ((String.append_right_inj "-").mp h)
    omega

namespace Instr

/-- The word that an instruction begins with. -/
def opcode : Instr → Opcode
  | const _ => .const
  | get _ => .get
  | set _ => .set
  | arith op => .arith op
  | call _ _ => .call

/-- What is written after that word. -/
def operand : Instr → String
  | const v => " " ++ v.repr
  | get slot | set slot => " " ++ slot.wat
  | arith _ => ""
  | call func _ => " $" ++ func

theorem wat_eq (i : Instr) : i.wat = i.opcode.text ++ i.operand ++ ")" := by
  cases i with
  | arith op =>
    rw [operand, String.append_empty]
    rfl
  | _ =>
    rw [operand, ← String.append_assoc]
    rfl

theorem firstWord_wat (i : Instr) : firstWord i.wat = i.opcode.text.toList := by
  rw [wat_eq, String.append_assoc]
  refine firstWord_append ?_ ?_
  · rcases i.opcode with _ | _ | _ | (_ | _ | _) | _ <;> decide
  · cases i <;> simp [operand, isWordPart]

/-- **The text of an instruction determines the instruction**, if its slot is that of a named
variable and its function a builtin: the number of arguments is not written. -/
theorem wat_inj {i j : Instr} (hi : ∀ slot ∈ i.slot?, slot.IsNamed)
    (hj : ∀ slot ∈ j.slot?, slot.IsNamed) (hcall : i.CallsBuiltin) (hcall' : j.CallsBuiltin)
    (h : i.wat = j.wat) : i = j := by
  have hopcode : i.opcode = j.opcode := by
    refine Opcode.text_inj (String.toList_inj.mp ?_)
    rw [← firstWord_wat, h, firstWord_wat]
  have hoperand : i.operand = j.operand := by
    rw [wat_eq, wat_eq, hopcode] at h
    exact (String.append_right_inj _).mp ((String.append_left_inj _).mp h)
  -- Instructions of one opcode differ at most in what follows it.
  rcases i with v | s | s | op | ⟨func, n⟩ <;> rcases j with w | t | t | op' | ⟨func', n'⟩ <;>
    cases hopcode
  · rw [eq_of_repr_eq ((String.append_right_inj _).mp hoperand)]
  · rw [Slot.wat_inj (hi s rfl) (hj t rfl) ((String.append_right_inj _).mp hoperand)]
  · rw [Slot.wat_inj (hi s rfl) (hj t rfl) ((String.append_right_inj _).mp hoperand)]
  · rfl
  · obtain ⟨f, rfl, rfl⟩ := hcall
    obtain ⟨g, rfl, rfl⟩ := hcall'
    rw [Builtin.name_inj ((String.append_right_inj _).mp hoperand)]

end Instr

theorem Slot.declaration_eq (s : Slot) : s.declaration = "(local" ++ (" " ++ (s.wat ++ " i32)")) := by
  rw [← String.append_assoc, ← String.append_assoc]
  rfl

theorem Slot.firstWord_declaration (s : Slot) : firstWord s.declaration = "(local".toList := by
  rw [declaration_eq]
  exact firstWord_append (by decide) (by simp [isWordPart])

/-! ## Lines -/

theorem Scan.newline_not_mem_of_isName {cs : List Char} (h : isName cs = true) : '\n' ∉ cs := by
  intro hmem
  rcases cs with _ | ⟨c, cs⟩
  · cases hmem
  · simp only [isName, Bool.and_eq_true, List.all_eq_true] at h
    rcases List.mem_cons.mp hmem with rfl | hmem
    · exact absurd h.1 (by decide)
    · exact absurd (h.2 '\n' hmem) (by decide)

theorem Slot.IsNamed.newline_not_mem {s : Slot} (h : s.IsNamed) : '\n' ∉ s.wat.toList := by
  cases s with
  | scratch => decide
  | named x =>
    have hx := Scan.newline_not_mem_of_isName h
    simp [wat, hx]

theorem newline_not_mem_repr (v : Int) : '\n' ∉ v.repr.toList := by
  have hdigits : ∀ n : Nat, '\n' ∉ n.repr.toList := by
    intro n hmem
    rw [Nat.toList_repr] at hmem
    exact absurd (Nat.isDigit_of_mem_toDigits (by decide) (by decide) hmem) (by decide)
  rw [Int.repr_eq_if]
  split
  · exact hdigits _
  · simpa using hdigits _

theorem Instr.newline_not_mem_wat {i : Instr} (h : ∀ slot ∈ i.slot?, slot.IsNamed)
    (hcall : i.CallsBuiltin) : '\n' ∉ i.wat.toList := by
  have hopcode : '\n' ∉ i.opcode.text.toList := by
    rcases i.opcode with _ | _ | _ | (_ | _ | _) | _ <;> decide
  have hoperand : '\n' ∉ i.operand.toList := by
    cases i with
    | const v => simpa [operand] using newline_not_mem_repr v
    | get slot => simpa [operand] using (h slot rfl).newline_not_mem
    | set slot => simpa [operand] using (h slot rfl).newline_not_mem
    | arith op => simp [operand]
    | call func arity =>
      obtain ⟨f, rfl, rfl⟩ := hcall
      rcases f with (_ | _) | (_ | _ | _) <;> decide
  rw [wat_eq, String.toList_append, String.toList_append]
  simp [hopcode, hoperand]

theorem Slot.IsNamed.newline_not_mem_declaration {s : Slot} (h : s.IsNamed) :
    '\n' ∉ s.declaration.toList := by
  rw [declaration_eq]
  simp [h.newline_not_mem]

/-- The instructions are the lines that do not begin as a declaration does. -/
theorem Body.filter_lines (b : Body) :
    b.lines.filter (firstWord · ≠ "(local".toList) = b.instrs.map Instr.wat := by
  have hlocals : (b.locals.map Slot.declaration).filter (firstWord · ≠ "(local".toList) = [] := by
    refine List.filter_eq_nil_iff.mpr fun line hline => ?_
    obtain ⟨slot, -, rfl⟩ := List.mem_map.mp hline
    rw [Slot.firstWord_declaration]
    decide
  have hinstrs : (b.instrs.map Instr.wat).filter (firstWord · ≠ "(local".toList) =
      b.instrs.map Instr.wat := by
    refine List.filter_eq_self.mpr fun line hline => ?_
    obtain ⟨i, -, rfl⟩ := List.mem_map.mp hline
    rw [Instr.firstWord_wat]
    rcases i.opcode with _ | _ | _ | (_ | _ | _) | _ <;> decide
  rw [lines, List.filter_append, hlocals, hinstrs, List.nil_append]

/-- **The text of a named program's body can be cut into its lines.** -/
theorem Program.IsNamed.splitOn_wat {p : Program} (hp : p.IsNamed) :
    p.body.wat.toList.splitOn '\n' = p.body.lines.map String.toList := by
  rw [Body.wat, String.toList_intercalate]
  refine List.splitOn_intercalate '\n' ?_ (by simp [Body.lines, body])
  simp only [Body.lines, List.map_append, List.map_map, List.forall_mem_append, List.forall_mem_map]
  exact ⟨fun slot hslot => (hp.local slot hslot).newline_not_mem_declaration,
    fun i hi => Instr.newline_not_mem_wat (hp.slot hi) (callsBuiltin_of_mem_code hi)⟩

/-- **The text of a body determines its code**, for programs with names of a script. -/
theorem Program.code_eq_of_wat_eq {p q : Program} (hp : p.IsNamed) (hq : q.IsNamed)
    (h : p.body.wat = q.body.wat) : p.code = q.code := by
  have hlines : p.body.lines = q.body.lines := by
    refine List.map_injective_iff.mpr (fun _ _ => String.toList_injective) ?_
    rw [← hp.splitOn_wat, h, hq.splitOn_wat]
  have hwat : p.code.map Instr.wat = q.code.map Instr.wat := by
    have hfilter := p.body.filter_lines
    rw [hlines, q.body.filter_lines] at hfilter
    exact hfilter.symm
  refine List.eq_of_map_eq_map (fun i hi j hj => ?_) hwat
  exact Instr.wat_inj (hp.slot hi) (hq.slot hj) (callsBuiltin_of_mem_code hi)
    (callsBuiltin_of_mem_code hj)

/-- **Code determines the program up to the spans of references**, and so does the text of a
body if all names in the programs are names of a script. -/
theorem Program.unspanned_eq_of_instrs_or_wat (p q : Program) :
    (p.body.instrs = q.body.instrs → p.unspanned = q.unspanned) ∧
    (p.IsNamed → q.IsNamed → p.body.wat = q.body.wat → p.unspanned = q.unspanned) := by
  refine ⟨fun h => unspanned_eq_of_code_eq h, fun hp hq h => ?_⟩
  exact unspanned_eq_of_code_eq (code_eq_of_wat_eq hp hq h)

/-- Two programs that differ in where they refer to `x` have one code and one text. -/
theorem Program.unspanned_eq_of_instrs_or_wat_pow :
    let program (span : Span) : Program :=
      [.define "x" (.binary .sub (.num 5) (.num (-7))),
       .expr (.call2 .pow (.ref "x" span) (.num 2))]
    let p := program ⟨15, 16⟩
    let q := program ⟨18, 19⟩
    p ≠ q ∧ p.body.instrs = q.body.instrs ∧ p.IsNamed ∧ q.IsNamed ∧ p.body.wat = q.body.wat ∧
      p.unspanned = q.unspanned := by
  intro program p q
  have hp : p.IsNamed := by decide
  have hq : q.IsNamed := by decide
  obtain ⟨-, htext⟩ := unspanned_eq_of_instrs_or_wat p q
  exact ⟨by decide, rfl, hp, hq, rfl, htext hp hq rfl⟩

end ArithWat
