import SolidScript.Proofs.Phrase.Line
import SolidScript.Script.Node

/-!
# Phrase — the line of a construct

Every construct is rendered as a line of tokens: `Node.line` says which they are and where blanks are
among them, and rendering is what the line reads (`Node.text_line`).  The line of what stands in a
construct is a part of its line (`Node.line_infix`).
-/

namespace SolidScript
open Line (commas mark name word)

mutual

/-- The tokens that an expression is rendered as. -/
@[simp] def Expr.line : Expr → Line
  | .undef _       => [word .undefWord]
  | .boolean _ b   => [word (if b then .trueWord else .falseWord)]
  | .number _ v    => [some (.number, v.print)]
  | .text _ t      => [some (.string, '"' :: t ++ ['"'])]
  | .variable _ n  => [name n]
  | .member _ e f  => e.line ++ [mark '.', name f]
  | .index _ a i   => a.line ++ mark '[' :: i.line ++ [mark ']']
  | .vector _ es   => mark '[' :: commas (Expr.lines es) ++ [mark ']']
  | .range _ a s b => mark '[' :: a.line ++ Expr.lineStep s ++ mark ':' :: b.line ++ [mark ']']
  | .call _ n as   => name n :: mark '(' :: commas (Argument.lines as) ++ [mark ')']
  | .comprehension _ gs as e =>
    mark '[' :: Argument.lineGroups gs ++ word .forWord :: none :: mark '(' ::
      commas (Argument.lines as) ++ mark ')' :: none :: e.line ++ [mark ']']
  | .unary _ o e   => mark '(' :: some (.symbol, o.text) :: e.line ++ [mark ')']
  | .binary _ a o b =>
    mark '(' :: a.line ++ none :: some (.symbol, o.text) :: none :: b.line ++ [mark ')']
  | .ternary _ c a b =>
    mark '(' :: c.line ++ none :: mark '?' :: none :: a.line ++ none :: mark ':' :: none ::
      b.line ++ [mark ')']
  | .led _ l as e  =>
    mark '(' :: word l.keyword :: mark '(' :: commas (Argument.lines as) ++ mark ')' :: none ::
      e.line ++ [mark ')']

/-- The lines of the expressions. -/
@[simp] def Expr.lines : List Expr → List Line
  | []      => []
  | e :: es => e.line :: Expr.lines es

/-- The step of a range, if it has one, after its colon. -/
@[simp] def Expr.lineStep : Option Expr → Line
  | none   => []
  | some e => mark ':' :: e.line

/-- The tokens that an argument is rendered as. -/
@[simp] def Argument.line : Argument → Line
  | .mk _ none e     => e.line
  | .mk _ (some n) e => name n :: mark '=' :: e.line

/-- The lines of the arguments. -/
@[simp] def Argument.lines : List Argument → List Line
  | []      => []
  | a :: as => a.line :: Argument.lines as

/-- The groups of bindings, each under a `let` of its own. -/
@[simp] def Argument.lineGroups : List (List Argument) → Line
  | []      => []
  | g :: gs =>
    word .letWord :: mark '(' :: commas (Argument.lines g) ++ mark ')' :: none ::
      Argument.lineGroups gs

end

/-- The tokens that a parameter is rendered as. -/
def Parameter.line (p : Parameter) : Line :=
  match p.default with
  | none   => [Line.name p.name]
  | some e => Line.name p.name :: mark '=' :: e.line

/-- A modifier, if there is one. -/
def Modifier.line : Option Modifier → Line
  | none   => []
  | some m => [some (.symbol, m.text)]

/-- The class of a reference to a file. -/
def Reference.tokenKind : Reference → TokenKind
  | use       => .useFile
  | inclusion => .includeFile

mutual

/-- The tokens that a statement is rendered as. -/
@[simp] def Statement.line : Statement → Line
  | .empty _    => [mark ';']
  | .block _ ss => mark '\x7b' :: Statement.lineItems ss ++ [none, mark '\x7d']
  | .moduleDefinition _ n ps s =>
    word .moduleWord :: none :: name n :: mark '(' :: commas (ps.map Parameter.line) ++
      mark ')' :: none :: s.line
  | .functionDefinition _ n ps e =>
    word .functionWord :: none :: name n :: mark '(' :: commas (ps.map Parameter.line) ++
      mark ')' :: none :: mark '=' :: none :: e.line ++ [mark ';']
  | .assignment _ n e => name n :: none :: mark '=' :: none :: e.line ++ [mark ';']
  | .call _ n as s m  =>
    Modifier.line m ++ name n :: mark '(' :: commas (Argument.lines as) ++
      mark ')' :: none :: s.line
  | .loop _ as s m    =>
    Modifier.line m ++ word .forWord :: none :: mark '(' :: commas (Argument.lines as) ++
      mark ')' :: none :: s.line
  | .conditional _ e a b =>
    word .ifWord :: none :: mark '(' :: e.line ++ mark ')' :: none :: a.line ++
      Statement.lineElse b
  | .modified _ m s   => some (.symbol, m.text) :: s.line
  | .file _ k p       => [some (k.tokenKind, k.text ++ ' ' :: '<' :: p ++ ['>'])]

/-- The statements, each after a blank. -/
@[simp] def Statement.lineItems : List Statement → Line
  | []      => []
  | s :: ss => none :: s.line ++ Statement.lineItems ss

/-- The branch after `else`, if there is one. -/
@[simp] def Statement.lineElse : Option Statement → Line
  | none   => []
  | some s => none :: word .elseWord :: none :: s.line

end

/-- The tokens that a script is rendered as. -/
def Script.line : Script → Line
  | []          => []
  | [s]         => s.line
  | s :: t :: r => s.line ++ none :: Script.line (t :: r)

/-- The tokens that a construct is rendered as. -/
def Node.line : Node → Line
  | expr e      => e.line
  | argument a  => a.line
  | parameter p => p.line
  | statement s => s.line

/-! ### Induction over constructs -/

namespace Node

/-- What stands in an expression is smaller than it. -/
theorem sizeOf_lt_of_mem_ofExpr {c : Node} : ∀ {e : Expr}, c ∈ ofExpr e → sizeOf c < 1 + sizeOf e
  | .undef _, h | .boolean _ _, h | .number _ _, h | .text _ _, h | .variable _ _, h => by
    simp [ofExpr] at h
  | .member _ e _, h | .unary _ _ e, h => by
    obtain rfl := List.mem_singleton.1 h
    simp only [expr.sizeOf_spec, Expr.member.sizeOf_spec, Expr.unary.sizeOf_spec]
    omega
  | .index _ a b, h | .binary _ a _ b, h => by
    rcases (by simpa [ofExpr] using h : c = expr a ∨ c = expr b) with rfl | rfl <;>
      simp only [expr.sizeOf_spec, Expr.index.sizeOf_spec, Expr.binary.sizeOf_spec] <;> omega
  | .vector _ es, h => by
    obtain ⟨e, he, rfl⟩ := List.mem_map.1 h
    have := List.sizeOf_lt_of_mem he
    simp only [expr.sizeOf_spec, Expr.vector.sizeOf_spec]
    omega
  | .range _ a s b, h => by
    rcases (by simpa [ofExpr] using h : c = expr a ∨ (∃ e, s = some e ∧ expr e = c) ∨ c = expr b)
      with rfl | ⟨e, rfl, rfl⟩ | rfl <;>
      simp only [expr.sizeOf_spec, Expr.range.sizeOf_spec, Option.some.sizeOf_spec] <;> omega
  | .call _ n as, h => by
    obtain ⟨a, ha, rfl⟩ := List.mem_map.1 h
    have := List.sizeOf_lt_of_mem ha
    simp only [argument.sizeOf_spec, Expr.call.sizeOf_spec]
    omega
  | .comprehension _ gs as e, h => by
    rcases (by simpa [ofExpr] using h : (∃ g ∈ gs, ∃ a ∈ g, argument a = c) ∨
      (∃ a ∈ as, argument a = c) ∨ c = expr e) with ⟨g, hg, a, ha, rfl⟩ | ⟨a, ha, rfl⟩ | rfl
    · have := List.sizeOf_lt_of_mem hg
      have := List.sizeOf_lt_of_mem ha
      simp only [argument.sizeOf_spec, Expr.comprehension.sizeOf_spec]
      omega
    · have := List.sizeOf_lt_of_mem ha
      simp only [argument.sizeOf_spec, Expr.comprehension.sizeOf_spec]
      omega
    · simp only [expr.sizeOf_spec, Expr.comprehension.sizeOf_spec]
      omega
  | .ternary _ d a b, h => by
    rcases (by simpa [ofExpr] using h : c = expr d ∨ c = expr a ∨ c = expr b) with
      rfl | rfl | rfl <;> simp only [expr.sizeOf_spec, Expr.ternary.sizeOf_spec] <;> omega
  | .led _ l as e, h => by
    rcases (by simpa [ofExpr] using h : (∃ a ∈ as, argument a = c) ∨ c = expr e) with
      ⟨a, ha, rfl⟩ | rfl
    · have := List.sizeOf_lt_of_mem ha
      simp only [argument.sizeOf_spec, Expr.led.sizeOf_spec]
      omega
    · simp only [expr.sizeOf_spec, Expr.led.sizeOf_spec]
      omega

/-- What stands in a statement is smaller than it. -/
theorem sizeOf_lt_of_mem_ofStatement {c : Node} :
    ∀ {s : Statement}, c ∈ ofStatement s → sizeOf c < 1 + sizeOf s
  | .empty _, h | .file _ _ _, h => by simp [ofStatement] at h
  | .block _ ss, h => by
    obtain ⟨s, hs, rfl⟩ := List.mem_map.1 h
    have := List.sizeOf_lt_of_mem hs
    simp only [statement.sizeOf_spec, Statement.block.sizeOf_spec]
    omega
  | .moduleDefinition _ n ps s, h => by
    rcases (by simpa [ofStatement] using h : (∃ p ∈ ps, parameter p = c) ∨ c = statement s) with
      ⟨p, hp, rfl⟩ | rfl
    · have := List.sizeOf_lt_of_mem hp
      simp only [parameter.sizeOf_spec, Statement.moduleDefinition.sizeOf_spec]
      omega
    · simp only [statement.sizeOf_spec, Statement.moduleDefinition.sizeOf_spec]
      omega
  | .functionDefinition _ n ps e, h => by
    rcases (by simpa [ofStatement] using h : (∃ p ∈ ps, parameter p = c) ∨ c = expr e) with
      ⟨p, hp, rfl⟩ | rfl
    · have := List.sizeOf_lt_of_mem hp
      simp only [parameter.sizeOf_spec, Statement.functionDefinition.sizeOf_spec]
      omega
    · simp only [expr.sizeOf_spec, Statement.functionDefinition.sizeOf_spec]
      omega
  | .assignment _ n e, h => by
    obtain rfl := List.mem_singleton.1 h
    simp only [expr.sizeOf_spec, Statement.assignment.sizeOf_spec]
    omega
  | .call _ _ as s _, h | .loop _ as s _, h => by
    rcases (by simpa [ofStatement] using h : (∃ a ∈ as, argument a = c) ∨ c = statement s) with
      ⟨a, ha, rfl⟩ | rfl
    · have := List.sizeOf_lt_of_mem ha
      simp only [argument.sizeOf_spec, Statement.call.sizeOf_spec, Statement.loop.sizeOf_spec]
      omega
    · simp only [statement.sizeOf_spec, Statement.call.sizeOf_spec, Statement.loop.sizeOf_spec]
      omega
  | .conditional _ e a b, h => by
    rcases (by simpa [ofStatement] using h : c = expr e ∨ c = statement a ∨
      ∃ s, b = some s ∧ statement s = c) with rfl | rfl | ⟨s, rfl, rfl⟩ <;>
      simp only [expr.sizeOf_spec, statement.sizeOf_spec, Statement.conditional.sizeOf_spec,
        Option.some.sizeOf_spec] <;> omega
  | .modified _ m s, h => by
    obtain rfl := List.mem_singleton.1 h
    simp only [statement.sizeOf_spec, Statement.modified.sizeOf_spec]
    omega

/-- What stands in a construct is smaller than it. -/
theorem sizeOf_lt_of_mem_children {c : Node} : ∀ {n : Node}, c ∈ n.children → sizeOf c < sizeOf n
  | expr e, h => by
    rw [expr.sizeOf_spec]
    exact sizeOf_lt_of_mem_ofExpr h
  | argument (.mk _ n e), h => by
    obtain rfl := List.mem_singleton.1 h
    simp only [expr.sizeOf_spec, argument.sizeOf_spec, Argument.mk.sizeOf_spec]
    omega
  | parameter ⟨_, n, d⟩, h => by
    obtain ⟨e, rfl, rfl⟩ := (by simpa [children] using h : ∃ e, d = some e ∧ expr e = c)
    simp only [expr.sizeOf_spec, parameter.sizeOf_spec, Parameter.mk.sizeOf_spec,
      Option.some.sizeOf_spec]
    omega
  | statement s, h => by
    rw [statement.sizeOf_spec]
    exact sizeOf_lt_of_mem_ofStatement h

/-- What passes from the constructs directly in a construct to the construct holds of all. -/
theorem induction {Q : Node → Prop} (step : ∀ n, (∀ c ∈ n.children, Q c) → Q n) (n : Node) : Q n :=
  step n fun c _ => induction step c
termination_by sizeOf n
decreasing_by exact sizeOf_lt_of_mem_children ‹_›

end Node

/-! ### What lines read -/

section
open Line

theorem lit_for : Text.lit "for (" = Keyword.forWord.spelling ++ [' ', '('] := by decide

theorem lit_close : Text.lit ") " = [')', ' '] := by decide

theorem lit_question : Text.lit " ? " = [' ', '?', ' '] := by decide

theorem lit_colon : Text.lit " : " = [' ', ':', ' '] := by decide

theorem lit_assign : Text.lit " = " = [' ', '=', ' '] := by decide

theorem lit_close_assign : Text.lit ") = " = [')', ' ', '=', ' '] := by decide

theorem lit_angle : Text.lit " <" = [' ', '<'] := by decide

theorem lit_let : Text.lit "let(" = Keyword.letWord.spelling ++ ['('] := by decide

theorem lit_module : Text.lit "module " = Keyword.moduleWord.spelling ++ [' '] := by decide

theorem lit_function : Text.lit "function " = Keyword.functionWord.spelling ++ [' '] := by decide

theorem lit_if : Text.lit "if (" = Keyword.ifWord.spelling ++ [' ', '('] := by decide

theorem lit_else : Text.lit " else " = ' ' :: Keyword.elseWord.spelling ++ [' '] := by decide

mutual

/-- An expression is rendered as its line reads. -/
theorem Expr.text_line : ∀ e : Expr, e.line.text = e.render
  | .undef _ => rfl
  | .boolean _ b => by cases b <;> rfl
  | .number _ v => List.append_nil v.print
  | .text _ t => List.append_nil ('"' :: t ++ ['"'])
  | .variable _ n => List.append_nil n
  | .member _ e f => by
    change _ = e.render ++ '.' :: f
    simp [Expr.line, e.text_line]
  | .index _ a i => by
    change _ = a.render ++ '[' :: i.render ++ [']']
    simp [Expr.line, a.text_line, i.text_line]
  | .vector _ es => by
    change _ = '[' :: commaSeparated (Expr.renderList es) ++ [']']
    simp [Expr.line, text_commas, Expr.text_lines es]
  | .range _ a s b => by
    change _ = '[' :: a.render ++ Expr.renderStep s ++ ':' :: b.render ++ [']']
    simp [Expr.line, a.text_line, b.text_line, Expr.text_lineStep s]
  | .call _ n as => by
    change _ = n ++ '(' :: commaSeparated (Argument.renderList as) ++ [')']
    simp [Expr.line, text_commas, Argument.text_lines as]
  | .comprehension _ gs as e => by
    change _ = '[' :: Argument.renderGroups gs ++ Text.lit "for (" ++
      commaSeparated (Argument.renderList as) ++ Text.lit ") " ++ e.render ++ [']']
    simp [Expr.line, lit_for, lit_close, text_commas, Argument.text_lines as,
      Argument.text_lineGroups gs, e.text_line]
  | .unary _ o e => by
    change _ = '(' :: o.text ++ e.render ++ [')']
    simp [Expr.line, e.text_line]
  | .binary _ a o b => by
    change _ = '(' :: a.render ++ ' ' :: o.text ++ ' ' :: b.render ++ [')']
    simp [Expr.line, a.text_line, b.text_line]
  | .ternary _ c a b => by
    change _ = '(' :: c.render ++ Text.lit " ? " ++ a.render ++ Text.lit " : " ++ b.render ++ [')']
    simp [Expr.line, lit_question, lit_colon, c.text_line, a.text_line, b.text_line]
  | .led _ l as e => by
    change _ = '(' :: l.text ++ '(' :: commaSeparated (Argument.renderList as) ++ Text.lit ") " ++
      e.render ++ [')']
    have keyword : l.keyword.spelling = l.text := by cases l <;> decide
    simp [Expr.line, keyword, lit_close, text_commas, Argument.text_lines as, e.text_line]

/-- The lines of expressions read as they are rendered. -/
theorem Expr.text_lines : ∀ es : List Expr, (Expr.lines es).map text = Expr.renderList es
  | [] => rfl
  | e :: es => by
    change _ = e.render :: Expr.renderList es
    simp [Expr.lines, e.text_line, Expr.text_lines es]

theorem Expr.text_lineStep : ∀ s : Option Expr, (Expr.lineStep s).text = Expr.renderStep s
  | none => rfl
  | some e => congrArg (':' :: ·) e.text_line

/-- The line of an argument reads as it is rendered. -/
theorem Argument.text_line : ∀ a : Argument, a.line.text = a.render
  | .mk _ none e => e.text_line
  | .mk _ (some n) e => by
    change _ = n ++ '=' :: e.render
    simp [Argument.line, e.text_line]

theorem Argument.text_lines :
    ∀ as : List Argument, (Argument.lines as).map text = Argument.renderList as
  | [] => rfl
  | a :: as => by
    change _ = a.render :: Argument.renderList as
    simp [Argument.lines, a.text_line, Argument.text_lines as]

/-- The line of groups of bindings reads as they are rendered. -/
theorem Argument.text_lineGroups :
    ∀ gs : List (List Argument), (Argument.lineGroups gs).text = Argument.renderGroups gs
  | [] => rfl
  | g :: gs => by
    change _ = Text.lit "let(" ++ commaSeparated (Argument.renderList g) ++ Text.lit ") " ++
      Argument.renderGroups gs
    simp [Argument.lineGroups, lit_let, lit_close, text_commas, Argument.text_lines g,
      Argument.text_lineGroups gs]

end

/-- The line of a parameter reads as it is rendered. -/
theorem Parameter.text_line (p : Parameter) : p.line.text = p.render := by
  unfold Parameter.line Parameter.render
  cases p.default <;> simp [Expr.text_line]

theorem Parameter.text_lines (ps : List Parameter) :
    (ps.map Parameter.line).map text = ps.map Parameter.render := by
  simp [Parameter.text_line]

theorem Modifier.text_line (m : Option Modifier) : (Modifier.line m).text = Modifier.render m := by
  cases m <;> simp [Modifier.line, Modifier.render]

mutual

/-- A statement is rendered as its line reads. -/
theorem Statement.text_line : ∀ s : Statement, s.line.text = s.render
  | .empty _ => rfl
  | .block _ ss => by
    change _ = '\x7b' :: Statement.renderItems ss ++ [' ', '\x7d']
    simp [Statement.line, Statement.text_lineItems ss]
  | .moduleDefinition _ n ps s => by
    change _ = Text.lit "module " ++ n ++ '(' :: commaSeparated (ps.map Parameter.render) ++
      Text.lit ") " ++ s.render
    simp [Statement.line, lit_module, lit_close, text_commas, Parameter.text_lines ps, s.text_line]
  | .functionDefinition _ n ps e => by
    change _ = Text.lit "function " ++ n ++ '(' :: commaSeparated (ps.map Parameter.render) ++
      Text.lit ") = " ++ e.render ++ [';']
    simp [Statement.line, lit_function, lit_close_assign, text_commas, Parameter.text_lines ps,
      e.text_line]
  | .assignment _ n e => by
    change _ = n ++ Text.lit " = " ++ e.render ++ [';']
    simp [Statement.line, lit_assign, e.text_line]
  | .call _ n as s m => by
    change _ = Modifier.render m ++ n ++ '(' :: commaSeparated (Argument.renderList as) ++
      Text.lit ") " ++ s.render
    simp [Statement.line, lit_close, text_commas, Argument.text_lines as, s.text_line,
      Modifier.text_line m]
  | .loop _ as s m => by
    change _ = Modifier.render m ++ Text.lit "for (" ++ commaSeparated (Argument.renderList as) ++
      Text.lit ") " ++ s.render
    simp [Statement.line, lit_for, lit_close, text_commas, Argument.text_lines as, s.text_line,
      Modifier.text_line m]
  | .conditional _ e a b => by
    change _ = Text.lit "if (" ++ e.render ++ Text.lit ") " ++ a.render ++ Statement.renderElse b
    simp [Statement.line, lit_if, lit_close, e.text_line, a.text_line, Statement.text_lineElse b]
  | .modified _ m s => by
    change _ = m.text ++ s.render
    simp [Statement.line, s.text_line]
  | .file _ k p => by
    change _ = k.text ++ Text.lit " <" ++ p ++ ['>']
    simp [Statement.line, lit_angle]

/-- The line of the statements of a block reads as they are rendered. -/
theorem Statement.text_lineItems :
    ∀ ss : List Statement, (Statement.lineItems ss).text = Statement.renderItems ss
  | [] => rfl
  | s :: ss => by
    change _ = ' ' :: s.render ++ Statement.renderItems ss
    simp [Statement.lineItems, s.text_line, Statement.text_lineItems ss]

theorem Statement.text_lineElse :
    ∀ s : Option Statement, (Statement.lineElse s).text = Statement.renderElse s
  | none => rfl
  | some s => by
    change _ = Text.lit " else " ++ s.render
    simp [Statement.lineElse, lit_else, s.text_line]

end

/-- A script is rendered as its line reads. -/
theorem Script.text_line (s : Script) : (Script.line s).text = s.render := by
  unfold Script.render
  induction s using Script.line.induct with
  | case1 => rfl
  | case2 s => simp [Script.line, Text.joined, Statement.text_line]
  | case3 s t r ih => simp [Script.line, Text.joined, Statement.text_line, ih]

/-- The line of a construct reads as the construct is rendered. -/
theorem Node.text_line (n : Node) : n.line.text = n.render := by
  cases n with
  | expr e => exact e.text_line
  | argument a => exact a.text_line
  | parameter p => exact p.text_line
  | statement s => exact s.text_line

end

/-! ### Lines in lines -/

theorem Expr.lines_eq_map (es : List Expr) : Expr.lines es = es.map Expr.line := by
  induction es with
  | nil => simp [Expr.lines]
  | cons e es ih => simp [Expr.lines, ih]

theorem Argument.lines_eq_map (as : List Argument) : Argument.lines as = as.map Argument.line := by
  induction as with
  | nil => simp [Argument.lines]
  | cons a as ih => simp [Argument.lines, ih]

/-- The line of an item is a part of the line of a vector's items. -/
theorem Expr.line_infix_commas {e : Expr} {es : List Expr} (h : e ∈ es) :
    e.line <:+: commas (Expr.lines es) :=
  Line.mem_infix_commas (Expr.lines_eq_map es ▸ List.mem_map_of_mem h)

/-- The line of an argument is a part of that of a list it is in. -/
theorem Argument.line_infix_commas {a : Argument} {as : List Argument} (h : a ∈ as) :
    a.line <:+: commas (Argument.lines as) :=
  Line.mem_infix_commas (Argument.lines_eq_map as ▸ List.mem_map_of_mem h)

theorem Parameter.line_infix_commas {p : Parameter} {ps : List Parameter} (h : p ∈ ps) :
    p.line <:+: commas (ps.map Parameter.line) := Line.mem_infix_commas (List.mem_map_of_mem h)

/-- The line of a binding is a part of that of the groups. -/
theorem Argument.line_infix_lineGroups {a : Argument} {g : List Argument}
    {gs : List (List Argument)} (ha : a ∈ g) (h : g ∈ gs) : a.line <:+: Argument.lineGroups gs := by
  induction gs with
  | nil => cases h
  | cons f gs ih =>
    rcases List.mem_cons.1 h with rfl | h
    · exact (Argument.line_infix_commas ha).trans ⟨[word .letWord, mark '('],
        mark ')' :: none :: Argument.lineGroups gs, by simp [Argument.lineGroups]⟩
    · exact (ih h).trans ⟨word .letWord :: mark '(' :: commas (Argument.lines f) ++ [mark ')', none],
        [], by simp [Argument.lineGroups]⟩

/-- The line of a statement is a part of that of its block. -/
theorem Statement.line_infix_lineItems {s : Statement} {ss : List Statement} (h : s ∈ ss) :
    s.line <:+: Statement.lineItems ss := by
  induction ss with
  | nil => cases h
  | cons t ss ih =>
    rcases List.mem_cons.1 h with rfl | h
    · exact ⟨[none], Statement.lineItems ss, by simp [Statement.lineItems]⟩
    · exact (ih h).trans ⟨none :: t.line, [], by simp [Statement.lineItems]⟩

/-- The line of a statement is a part of that of its script. -/
theorem Script.line_infix {s : Script} {t : Statement} (h : t ∈ s) : t.line <:+: Script.line s := by
  induction s using Script.line.induct with
  | case1 => cases h
  | case2 s =>
    obtain rfl := List.mem_singleton.1 h
    exact List.infix_rfl
  | case3 s u r ih =>
    rcases List.mem_cons.1 h with rfl | h
    · exact ⟨[], none :: Script.line (u :: r), by simp [Script.line]⟩
    · exact (ih h).trans ⟨s.line ++ [none], [], by simp [Script.line]⟩

namespace Node

/-- The line of a part of an expression is a part of its line. -/
theorem line_infix_ofExpr {c : Node} : ∀ {e : Expr}, c ∈ ofExpr e → c.line <:+: e.line
  | .undef _, h | .boolean _ _, h | .number _ _, h | .text _ _, h | .variable _ _, h => by
    simp [ofExpr] at h
  | .member _ e f, h => by
    obtain rfl := List.mem_singleton.1 h
    exact ⟨[], [mark '.', Line.name f], by simp [line, Expr.line]⟩
  | .index _ a i, h => by
    rcases (by simpa [ofExpr] using h : c = expr a ∨ c = expr i) with rfl | rfl
    · exact ⟨[], mark '[' :: i.line ++ [mark ']'], by simp [line, Expr.line]⟩
    · exact ⟨a.line ++ [mark '['], [mark ']'], by simp [line, Expr.line]⟩
  | .vector _ es, h => by
    obtain ⟨e, he, rfl⟩ := List.mem_map.1 h
    exact (Expr.line_infix_commas he).trans ⟨[mark '['], [mark ']'], by simp [Expr.line]⟩
  | .range _ a s b, h => by
    rcases (by simpa [ofExpr] using h : c = expr a ∨ (∃ e, s = some e ∧ expr e = c) ∨ c = expr b)
      with rfl | ⟨e, rfl, rfl⟩ | rfl
    · exact ⟨[mark '['], Expr.lineStep s ++ mark ':' :: b.line ++ [mark ']'],
        by simp [line, Expr.line]⟩
    · exact ⟨mark '[' :: a.line ++ [mark ':'], mark ':' :: b.line ++ [mark ']'],
        by simp [line, Expr.line, Expr.lineStep]⟩
    · exact ⟨mark '[' :: a.line ++ Expr.lineStep s ++ [mark ':'], [mark ']'],
        by simp [line, Expr.line]⟩
  | .call _ n as, h => by
    obtain ⟨a, ha, rfl⟩ := List.mem_map.1 h
    exact (Argument.line_infix_commas ha).trans ⟨[Line.name n, mark '('], [mark ')'],
      by simp [Expr.line]⟩
  | .comprehension _ gs as e, h => by
    rcases (by simpa [ofExpr] using h : (∃ g ∈ gs, ∃ a ∈ g, argument a = c) ∨
      (∃ a ∈ as, argument a = c) ∨ c = expr e) with ⟨g, hg, a, ha, rfl⟩ | ⟨a, ha, rfl⟩ | rfl
    · exact (Argument.line_infix_lineGroups ha hg).trans ⟨[mark '['],
        word .forWord :: none :: mark '(' :: commas (Argument.lines as) ++ mark ')' :: none ::
          e.line ++ [mark ']'], by simp [Expr.line]⟩
    · exact (Argument.line_infix_commas ha).trans
        ⟨mark '[' :: Argument.lineGroups gs ++ [word .forWord, none, mark '('],
          mark ')' :: none :: e.line ++ [mark ']'], by simp [Expr.line]⟩
    · exact ⟨mark '[' :: Argument.lineGroups gs ++ word .forWord :: none :: mark '(' ::
        commas (Argument.lines as) ++ [mark ')', none], [mark ']'], by simp [line, Expr.line]⟩
  | .unary _ o e, h => by
    obtain rfl := List.mem_singleton.1 h
    exact ⟨[mark '(', some (.symbol, o.text)], [mark ')'], by simp [line, Expr.line]⟩
  | .binary _ a o b, h => by
    rcases (by simpa [ofExpr] using h : c = expr a ∨ c = expr b) with rfl | rfl
    · exact ⟨[mark '('], none :: some (.symbol, o.text) :: none :: b.line ++ [mark ')'],
        by simp [line, Expr.line]⟩
    · exact ⟨mark '(' :: a.line ++ [none, some (.symbol, o.text), none], [mark ')'],
        by simp [line, Expr.line]⟩
  | .ternary _ d a b, h => by
    rcases (by simpa [ofExpr] using h : c = expr d ∨ c = expr a ∨ c = expr b) with rfl | rfl | rfl
    · exact ⟨[mark '('], none :: mark '?' :: none :: a.line ++ none :: mark ':' :: none ::
        b.line ++ [mark ')'], by simp [line, Expr.line]⟩
    · exact ⟨mark '(' :: d.line ++ [none, mark '?', none], none :: mark ':' :: none :: b.line ++
        [mark ')'], by simp [line, Expr.line]⟩
    · exact ⟨mark '(' :: d.line ++ none :: mark '?' :: none :: a.line ++ [none, mark ':', none],
        [mark ')'], by simp [line, Expr.line]⟩
  | .led _ l as e, h => by
    rcases (by simpa [ofExpr] using h : (∃ a ∈ as, argument a = c) ∨ c = expr e) with
      ⟨a, ha, rfl⟩ | rfl
    · exact (Argument.line_infix_commas ha).trans ⟨[mark '(', word l.keyword, mark '('],
        mark ')' :: none :: e.line ++ [mark ')'], by simp [Expr.line]⟩
    · exact ⟨mark '(' :: word l.keyword :: mark '(' :: commas (Argument.lines as) ++
        [mark ')', none], [mark ')'], by simp [line, Expr.line]⟩

/-- The line of a part of a statement is a part of its line. -/
theorem line_infix_ofStatement {c : Node} : ∀ {s : Statement}, c ∈ ofStatement s → c.line <:+: s.line
  | .empty _, h | .file _ _ _, h => by simp [ofStatement] at h
  | .block _ ss, h => by
    obtain ⟨s, hs, rfl⟩ := List.mem_map.1 h
    exact (Statement.line_infix_lineItems hs).trans ⟨[mark '\x7b'], [none, mark '\x7d'],
      by simp [Statement.line]⟩
  | .moduleDefinition _ n ps s, h => by
    rcases (by simpa [ofStatement] using h : (∃ p ∈ ps, parameter p = c) ∨ c = statement s) with
      ⟨p, hp, rfl⟩ | rfl
    · exact (Parameter.line_infix_commas hp).trans
        ⟨[word .moduleWord, none, Line.name n, mark '('], mark ')' :: none :: s.line,
          by simp [Statement.line]⟩
    · exact ⟨word .moduleWord :: none :: Line.name n :: mark '(' ::
        commas (ps.map Parameter.line) ++ [mark ')', none], [], by simp [line, Statement.line]⟩
  | .functionDefinition _ n ps e, h => by
    rcases (by simpa [ofStatement] using h : (∃ p ∈ ps, parameter p = c) ∨ c = expr e) with
      ⟨p, hp, rfl⟩ | rfl
    · exact (Parameter.line_infix_commas hp).trans
        ⟨[word .functionWord, none, Line.name n, mark '('],
          mark ')' :: none :: mark '=' :: none :: e.line ++ [mark ';'], by simp [Statement.line]⟩
    · exact ⟨word .functionWord :: none :: Line.name n :: mark '(' ::
        commas (ps.map Parameter.line) ++ [mark ')', none, mark '=', none], [mark ';'],
          by simp [line, Statement.line]⟩
  | .assignment _ n e, h => by
    obtain rfl := List.mem_singleton.1 h
    exact ⟨[Line.name n, none, mark '=', none], [mark ';'], by simp [line, Statement.line]⟩
  | .call _ n as s m, h => by
    rcases (by simpa [ofStatement] using h : (∃ a ∈ as, argument a = c) ∨ c = statement s) with
      ⟨a, ha, rfl⟩ | rfl
    · exact (Argument.line_infix_commas ha).trans ⟨Modifier.line m ++ [Line.name n, mark '('],
        mark ')' :: none :: s.line, by simp [Statement.line]⟩
    · exact ⟨Modifier.line m ++ Line.name n :: mark '(' :: commas (Argument.lines as) ++
        [mark ')', none], [], by simp [line, Statement.line]⟩
  | .loop _ as s m, h => by
    rcases (by simpa [ofStatement] using h : (∃ a ∈ as, argument a = c) ∨ c = statement s) with
      ⟨a, ha, rfl⟩ | rfl
    · exact (Argument.line_infix_commas ha).trans
        ⟨Modifier.line m ++ [word .forWord, none, mark '('], mark ')' :: none :: s.line,
          by simp [Statement.line]⟩
    · exact ⟨Modifier.line m ++ word .forWord :: none :: mark '(' ::
        commas (Argument.lines as) ++ [mark ')', none], [], by simp [line, Statement.line]⟩
  | .conditional _ e a b, h => by
    rcases (by simpa [ofStatement] using h : c = expr e ∨ c = statement a ∨
      ∃ s, b = some s ∧ statement s = c) with rfl | rfl | ⟨s, rfl, rfl⟩
    · exact ⟨[word .ifWord, none, mark '('],
        mark ')' :: none :: a.line ++ Statement.lineElse b, by simp [line, Statement.line]⟩
    · exact ⟨word .ifWord :: none :: mark '(' :: e.line ++ [mark ')', none],
        Statement.lineElse b, by simp [line, Statement.line]⟩
    · exact ⟨word .ifWord :: none :: mark '(' :: e.line ++ mark ')' :: none :: a.line ++
        [none, word .elseWord, none], [], by simp [line, Statement.line, Statement.lineElse]⟩
  | .modified _ m s, h => by
    obtain rfl := List.mem_singleton.1 h
    exact ⟨[some (.symbol, m.text)], [], by simp [line, Statement.line]⟩

/-- The line of a part is a part of the line. -/
theorem line_infix {c : Node} : ∀ {n : Node}, c ∈ n.children → c.line <:+: n.line
  | expr _, h => line_infix_ofExpr h
  | argument (.mk _ none e), h => by
    obtain rfl := List.mem_singleton.1 h
    exact ⟨[], [], by simp [line, Argument.line]⟩
  | argument (.mk _ (some n) e), h => by
    obtain rfl := List.mem_singleton.1 h
    exact ⟨[Line.name n, mark '='], [], by simp [line, Argument.line]⟩
  | parameter ⟨_, n, d⟩, h => by
    obtain ⟨e, rfl, rfl⟩ := (by simpa [children] using h : ∃ e, d = some e ∧ expr e = c)
    exact ⟨[Line.name n, mark '='], [], by simp [line, Parameter.line]⟩
  | statement _, h => line_infix_ofStatement h

/-- The line of what stands in a construct is a part of its line. -/
theorem Within.line_infix {m n : Node} (h : m.Within n) : m.line <:+: n.line := by
  induction h with
  | self => exact List.infix_rfl
  | child hc _ ih => exact ih.trans (Node.line_infix hc)

end Node

end SolidScript
