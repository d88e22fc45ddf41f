import SolidScript.Number.Printed
import SolidScript.Script.Basic

/-!
# Script — rendering

Every construct as a text that reads as that construct again.  An operation stands in parentheses
of its own, so that precedence never has to be told.
-/

namespace SolidScript

/-- Texts with a comma and a space between neighbours. -/
def commaSeparated (ts : List Text) : Text := Text.joined [',', ' '] ts

mutual

/-- The expression as text. -/
def Expr.render : Expr → Text
  | .undef _         => Text.lit "undef"
  | .boolean _ true  => Text.lit "true"
  | .boolean _ false => Text.lit "false"
  | .number _ v      => v.print
  | .text _ t        => '"' :: t ++ ['"']
  | .variable _ n    => n
  | .member _ e f    => e.render ++ '.' :: f
  | .index _ a i     => a.render ++ '[' :: i.render ++ [']']
  | .vector _ items  => '[' :: commaSeparated (Expr.renderList items) ++ [']']
  | .range _ a s b   => '[' :: a.render ++ Expr.renderStep s ++ ':' :: b.render ++ [']']
  | .call _ n args   => n ++ '(' :: commaSeparated (Argument.renderList args) ++ [')']
  | .comprehension _ lets vars body =>
    '[' :: Argument.renderGroups lets ++ Text.lit "for (" ++
      commaSeparated (Argument.renderList vars) ++ Text.lit ") " ++ body.render ++ [']']
  | .unary _ o e     => '(' :: o.text ++ e.render ++ [')']
  | .binary _ a o b  => '(' :: a.render ++ ' ' :: o.text ++ ' ' :: b.render ++ [')']
  | .ternary _ c a b =>
    '(' :: c.render ++ Text.lit " ? " ++ a.render ++ Text.lit " : " ++ b.render ++ [')']
  | .led _ l args e  =>
    '(' :: l.text ++ '(' :: commaSeparated (Argument.renderList args) ++ Text.lit ") " ++
      e.render ++ [')']

/-- The expressions as texts. -/
def Expr.renderList : List Expr → List Text
  | []      => []
  | e :: es => e.render :: Expr.renderList es

/-- The step of a range, if it has one, after its colon. -/
def Expr.renderStep : Option Expr → Text
  | none   => []
  | some e => ':' :: e.render

/-- The argument as text. -/
def Argument.render : Argument → Text
  | .mk _ none e     => e.render
  | .mk _ (some n) e => n ++ '=' :: e.render

/-- The arguments as texts. -/
def Argument.renderList : List Argument → List Text
  | []      => []
  | a :: as => a.render :: Argument.renderList as

/-- Each group of bindings under a `let` of its own. -/
def Argument.renderGroups : List (List Argument) → Text
  | []      => []
  | g :: gs =>
    Text.lit "let(" ++ commaSeparated (Argument.renderList g) ++ Text.lit ") " ++
      Argument.renderGroups gs

end

/-- The parameter as text. -/
def Parameter.render (p : Parameter) : Text :=
  match p.default with
  | none   => p.name
  | some e => p.name ++ '=' :: e.render

/-- A modifier, if there is one. -/
def Modifier.render : Option Modifier → Text
  | none   => []
  | some m => m.text

mutual

/-- The statement as text. -/
def Statement.render : Statement → Text
  | .empty _       => [';']
  | .block _ items => '\x7b' :: Statement.renderItems items ++ [' ', '\x7d']
  | .moduleDefinition _ n ps b =>
    Text.lit "module " ++ n ++ '(' :: commaSeparated (ps.map Parameter.render) ++
      Text.lit ") " ++ b.render
  | .functionDefinition _ n ps e =>
    Text.lit "function " ++ n ++ '(' :: commaSeparated (ps.map Parameter.render) ++
      Text.lit ") = " ++ e.render ++ [';']
  | .assignment _ n e => n ++ Text.lit " = " ++ e.render ++ [';']
  | .call _ n args c m =>
    Modifier.render m ++ n ++ '(' :: commaSeparated (Argument.renderList args) ++
      Text.lit ") " ++ c.render
  | .loop _ vars b m =>
    Modifier.render m ++ Text.lit "for (" ++ commaSeparated (Argument.renderList vars) ++
      Text.lit ") " ++ b.render
  | .conditional _ e a b =>
    Text.lit "if (" ++ e.render ++ Text.lit ") " ++ a.render ++ Statement.renderElse b
  | .modified _ m s => m.text ++ s.render
  | .file _ k p     => k.text ++ Text.lit " <" ++ p ++ ['>']

/-- The statements, each after a space. -/
def Statement.renderItems : List Statement → Text
  | []      => []
  | s :: ss => ' ' :: s.render ++ Statement.renderItems ss

/-- The branch after `else`, if there is one. -/
def Statement.renderElse : Option Statement → Text
  | none   => []
  | some s => Text.lit " else " ++ s.render

end

/-- The statements as one text, with a space between neighbours. -/
def Script.render (s : Script) : Text := Text.joined [' '] (s.map Statement.render)

end SolidScript
