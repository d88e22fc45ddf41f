import SolidScript.Number.Double

/-!
# Script — statements and expressions

A script is a list of statements.  Every statement, expression, argument and parameter may know
where it starts: the number of characters before it in the source it was read from.  One that was
not read from a source knows no place.

Operators, modifiers and the other small vocabularies are written the way `text` says.
-/

namespace SolidScript

/-! ### Small vocabularies -/

/-- An operator between two numbers. -/
inductive Operator where
  | add | sub | mul | div | rem
  | gt | ge | eq | ne | le | lt
deriving DecidableEq, Repr

namespace Operator

/-- How the operator is written. -/
def text : Operator → Text
  | add => ['+']
  | sub => ['-']
  | mul => ['*']
  | div => ['/']
  | rem => ['%']
  | gt  => ['>']
  | ge  => ['>', '=']
  | eq  => ['=', '=']
  | ne  => ['!', '=']
  | le  => ['<', '=']
  | lt  => ['<']

/-- Every operator. -/
def all : List Operator := [add, sub, mul, div, rem, gt, ge, eq, ne, le, lt]

/-- The operator that is written so. -/
def ofText? (t : Text) : Option Operator := all.find? fun o => o.text == t

theorem ofText?_text (o : Operator) : ofText? o.text = some o := by cases o <;> decide

end Operator

/-- An operator between two truth values. -/
inductive Connective where
  | or | and
deriving DecidableEq, Repr

namespace Connective

/-- How the connective is written. -/
def text : Connective → Text
  | or  => ['|', '|']
  | and => ['&', '&']

/-- The connective that is written so. -/
def ofText? (t : Text) : Option Connective := [or, and].find? fun c => c.text == t

theorem ofText?_text (c : Connective) : ofText? c.text = some c := by cases c <;> decide

end Connective

/-- What may stand between two operands. -/
inductive BinaryOp where
  | connective (c : Connective)
  | operator (o : Operator)
deriving DecidableEq, Repr

namespace BinaryOp

/-- How it is written. -/
def text : BinaryOp → Text
  | connective c => c.text
  | operator o   => o.text

/-- What is written so. -/
def ofText? (t : Text) : Option BinaryOp :=
  match Connective.ofText? t with
  | some c => some (connective c)
  | none   => (Operator.ofText? t).map operator

theorem ofText?_text (b : BinaryOp) : ofText? b.text = some b := by
  rcases b with c | o
  · cases c <;> decide
  · cases o <;> decide

end BinaryOp

/-- An operator before one operand. -/
inductive UnaryOp where
  | negative | not
deriving DecidableEq, Repr

/-- How the operator is written. -/
def UnaryOp.text : UnaryOp → Text
  | negative => ['-']
  | not      => ['!']

/-- A modifier of a statement. -/
inductive Modifier where
  | disable | showOnly | highlight | transparent
deriving DecidableEq, Repr

namespace Modifier

/-- How the modifier is written. -/
def text : Modifier → Text
  | disable     => ['*']
  | showOnly    => ['!']
  | highlight   => ['#']
  | transparent => ['%']

/-- Every modifier. -/
def all : List Modifier := [disable, showOnly, highlight, transparent]

/-- The modifier that is written so. -/
def ofText? (t : Text) : Option Modifier := all.find? fun m => m.text == t

theorem ofText?_text (m : Modifier) : ofText? m.text = some m := by cases m <;> decide

end Modifier

/-- What may lead an expression, with arguments of its own: local bindings, a message, or a
condition that has to hold. -/
inductive Lead where
  | binding | echo | assertion
deriving DecidableEq, Repr

/-- How the lead is written. -/
def Lead.text : Lead → Text
  | binding   => ['l', 'e', 't']
  | echo      => ['e', 'c', 'h', 'o']
  | assertion => ['a', 's', 's', 'e', 'r', 't']

/-- How another file is referred to: for its definitions, or as if it stood here. -/
inductive Reference where
  | use | inclusion
deriving DecidableEq, Repr

/-- How the reference is written. -/
def Reference.text : Reference → Text
  | use       => ['u', 's', 'e']
  | inclusion => ['i', 'n', 'c', 'l', 'u', 'd', 'e']

/-- What is written so is no entry of a vocabulary. -/
def notInVocabulary (vocabulary : String) (t : Text) : String :=
  Text.string (Text.quoted t) ++ " is not a valid " ++ vocabulary

/-! ### Expressions -/

/-- The number of characters before a construct, if it was read from a source. -/
abbrev Place := Option Nat

mutual

/-- An expression. -/
inductive Expr where
  | undef (place : Place)
  | boolean (place : Place) (value : Bool)
  | number (place : Place) (value : Number.Double)
  /-- What stands between the quotes, escapes as written. -/
  | text (place : Place) (content : Text)
  | variable (place : Place) (name : Text)
  | member (place : Place) (parent : Expr) (field : Text)
  | index (place : Place) (array : Expr) (index : Expr)
  | vector (place : Place) (items : List Expr)
  | range (place : Place) (start : Expr) (step : Option Expr) (stop : Expr)
  | call (place : Place) (name : Text) (args : List Argument)
  /-- Groups of bindings, each of which sees those before it, what is looped over, and the body. -/
  | comprehension (place : Place) (lets : List (List Argument)) (loops : List Argument)
      (body : Expr)
  | unary (place : Place) (op : UnaryOp) (operand : Expr)
  | binary (place : Place) (left : Expr) (op : BinaryOp) (right : Expr)
  | ternary (place : Place) (condition ifTrue ifFalse : Expr)
  | led (place : Place) (lead : Lead) (args : List Argument) (body : Expr)

/-- An argument, positional or named. -/
inductive Argument where
  | mk (place : Place) (name : Option Text) (value : Expr)

end

/-- A parameter of a module or function, perhaps with a default. -/
structure Parameter where
  place : Place
  name : Text
  default : Option Expr

/-! ### Statements -/

/-- A statement. -/
inductive Statement where
  | empty (place : Place)
  | block (place : Place) (items : List Statement)
  | moduleDefinition (place : Place) (name : Text) (params : List Parameter) (body : Statement)
  | functionDefinition (place : Place) (name : Text) (params : List Parameter) (body : Expr)
  | assignment (place : Place) (name : Text) (value : Expr)
  | call (place : Place) (name : Text) (args : List Argument) (child : Statement)
      (modifier : Option Modifier)
  | loop (place : Place) (loops : List Argument) (body : Statement)
      (modifier : Option Modifier)
  | conditional (place : Place) (condition : Expr) (ifTrue : Statement)
      (ifFalse : Option Statement)
  /-- A modifier before a statement that has no room for it. -/
  | modified (place : Place) (modifier : Modifier) (target : Statement)
  | file (place : Place) (kind : Reference) (path : Text)

/-- A script is its statements in order. -/
abbrev Script := List Statement

/-! ### Places -/

/-- Where the expression starts. -/
def Expr.place : Expr → Place
  | .undef p | .boolean p _ | .number p _ | .text p _ | .variable p _ | .member p _ _
  | .index p _ _ | .vector p _ | .range p _ _ _ | .call p _ _ | .comprehension p _ _ _
  | .unary p _ _ | .binary p _ _ _ | .ternary p _ _ _ | .led p _ _ _ => p

/-- Where the argument starts. -/
def Argument.place : Argument → Place
  | .mk p _ _ => p

/-- Where the statement starts. -/
def Statement.place : Statement → Place
  | .empty p | .block p _ | .moduleDefinition p _ _ _ | .functionDefinition p _ _ _
  | .assignment p _ _ | .call p _ _ _ _ | .loop p _ _ _ | .conditional p _ _ _
  | .modified p _ _ | .file p _ _ => p

end SolidScript
