import SolidScript.Grammar.Tree
import SolidScript.Number.Numeral
import SolidScript.Script.Basic

/-!
# Script — from trees to scripts

A tree of the grammar is read as the construct that it spells.  A chain of operators groups to the
left, and everything that it builds starts where the chain starts; so do all member and index
accesses of one chain.  A parenthesised expression is the expression inside, a plus sign before an
operand leaves no trace, and a modifier goes into a call or a loop that has room for it.

A tree that does not have the shape that the grammar gives it is not read.
-/

namespace SolidScript.OfTree

/-- A text without its first and its last character. -/
def inner (t : Text) : Text := t.tail.dropLast

/-- The path of a reference: what stands between the first `<` and the last character. -/
def path (t : Text) : Text := (t.dropWhile (· != '<')).tail.dropLast

/-- What an operator before an operand makes of it. -/
def signed? (place : Place) (sign : Text) (e : Expr) : Option Expr :=
  match sign with
  | ['-'] => some (.unary place .negative e)
  | ['!'] => some (.unary place .not e)
  | ['+'] => some e
  | _     => none

/-- The statement with a modifier: in its place for one if there is one and it is free, around
the statement otherwise. -/
def modify (place : Place) (m : Modifier) : Statement → Statement
  | .call _ n args c none => .call place n args c (some m)
  | .loop _ vars b none   => .loop place vars b (some m)
  | s                     => .modified place m s

mutual

/-- The expression that the tree spells. -/
def expr? : Tree → Option Expr
  | .leaf .identifier p n            => some (.variable p n)
  | .leaf .number p t                => (Number.Numeral.value? t).map (.number p)
  | .leaf .string p t                => some (.text p (inner t))
  | .leaf (.keyword .undefWord) p _  => some (.undef p)
  | .leaf (.keyword .trueWord) p _   => some (.boolean p true)
  | .leaf (.keyword .falseWord) p _  => some (.boolean p false)
  | .node .letExpression p [.node .letRun _ groups, body] => do
    some (.led p .binding (← clauses? groups).flatten (← expr? body))
  | .node .echoExpression p [_, _, .node .arguments _ args, _, body] => do
    some (.led p .echo (← arguments? args) (← expr? body))
  | .node .assertExpression p [_, _, .node .arguments _ args, _, body] => do
    some (.led p .assertion (← arguments? args) (← expr? body))
  | .node .ternary p [c, _, a, _, b] => do
    some (.ternary p (← expr? c) (← expr? a) (← expr? b))
  | .node .disjunction p (e :: es) => do chain? p (← expr? e) es
  | .node .comparison p (e :: es)  => do chain? p (← expr? e) es
  | .node .sum p (e :: es)         => do chain? p (← expr? e) es
  | .node .product p (e :: es)     => do chain? p (← expr? e) es
  | .node .signed p [.leaf .unary _ sign, e] => do signed? p sign (← expr? e)
  | .node .access p [e, .node .suffixes _ ss] => do suffixes? p (← expr? e) ss
  | .node .parenthesized _ [_, e, _] => expr? e
  | .node .functionCall p [.leaf .identifier _ n, _, .node .arguments _ args, _] => do
    some (.call p n (← arguments? args))
  | .node .comprehension p
      [_, .node .letClauses _ groups, _, _, .node .arguments _ vars, _, body, _] => do
    some (.comprehension p (← clauses? groups) (← arguments? vars) (← expr? body))
  | .node .range p [_, a, _, b, .node .rangeStep _ [], _] => do
    some (.range p (← expr? a) none (← expr? b))
  | .node .range p [_, a, _, b, .node .rangeStep _ [_, c], _] => do
    some (.range p (← expr? a) (some (← expr? b)) (← expr? c))
  | .node .vector p [_, .node .vectorBody _ items, _] => do some (.vector p (← items? items))
  | _ => none

/-- The expression with the operators and operands that follow it in a chain. -/
def chain? (place : Place) (left : Expr) : List Tree → Option Expr
  | []                        => some left
  | .leaf _ _ op :: right :: r => do
    chain? place (.binary place left (← BinaryOp.ofText? op) (← expr? right)) r
  | _                         => none

/-- The expression with the accesses that follow it. -/
def suffixes? (place : Place) (base : Expr) : List Tree → Option Expr
  | [] => some base
  | .node .memberSuffix _ [_, .leaf .identifier _ n] :: r =>
    suffixes? place (.member place base n) r
  | .node .indexSuffix _ [_, e, _] :: r => do
    suffixes? place (.index place base (← expr? e)) r
  | _ => none

/-- Expressions with commas between them, and perhaps one after them. -/
def items? : List Tree → Option (List Expr)
  | []          => some []
  | [e]         => do some [← expr? e]
  | e :: _ :: r => do some ((← expr? e) :: (← items? r))

/-- The argument that the tree spells. -/
def argument? : Tree → Option Argument
  | .node .namedArgument p [.leaf .identifier _ n, _, e] => do some (.mk p (some n) (← expr? e))
  | .node .positionalArgument p [e]                      => do some (.mk p none (← expr? e))
  | _                                                    => none

/-- Arguments with commas between them, and perhaps one after them. -/
def arguments? : List Tree → Option (List Argument)
  | []          => some []
  | [a]         => do some [← argument? a]
  | a :: _ :: r => do some ((← argument? a) :: (← arguments? r))

/-- The groups of bindings. -/
def clauses? : List Tree → Option (List (List Argument))
  | [] => some []
  | .node .letClause _ [_, _, .node .arguments _ args, _] :: r => do
    some ((← arguments? args) :: (← clauses? r))
  | _ => none

end

theorem expr?_parenthesized (p : Place) (o e c : Tree) :
    expr? (.node .parenthesized p [o, e, c]) = expr? e := by
  simp [expr?]

/-- The parameter that the tree spells. -/
def parameter? : Tree → Option Parameter
  | .node .parameter p [.leaf .identifier _ n, .node .parameterDefault _ []] =>
    some ⟨p, n, none⟩
  | .node .parameter p [.leaf .identifier _ n, .node .parameterDefault _ [_, e]] => do
    some ⟨p, n, some (← expr? e)⟩
  | _ => none

/-- Parameters with commas between them, and perhaps one after them. -/
def parameters? : List Tree → Option (List Parameter)
  | []          => some []
  | [a]         => do some [← parameter? a]
  | a :: _ :: r => do some ((← parameter? a) :: (← parameters? r))

mutual

/-- The statement that the tree spells. -/
def statement? : Tree → Option Statement
  | .leaf .useFile p t             => some (.file p .use (path t))
  | .leaf .includeFile p t         => some (.file p .inclusion (path t))
  | .leaf (.mark .semicolon) p _   => some (.empty p)
  | .node .block p [_, .node .blockItems _ items, _] => do some (.block p (← statements? items))
  | .node .moduleDefinition p
      [_, .leaf .identifier _ n, _, .node .parameters _ params, _, body] => do
    some (.moduleDefinition p n (← parameters? params) (← statement? body))
  | .node .functionDefinition p
      [_, .leaf .identifier _ n, _, .node .parameters _ params, _, _, body, _] => do
    some (.functionDefinition p n (← parameters? params) (← expr? body))
  | .node .assignment p [.leaf .identifier _ n, _, e, _] => do
    some (.assignment p n (← expr? e))
  | .node .closedIfElse p [_, _, e, _, a, _, b] => do
    some (.conditional p (← expr? e) (← statement? a) (some (← statement? b)))
  | .node .openIfElse p [_, _, e, _, a, _, b] => do
    some (.conditional p (← expr? e) (← statement? a) (some (← statement? b)))
  | .node .openIf p [_, _, e, _, a] => do
    some (.conditional p (← expr? e) (← statement? a) none)
  | .node .closedModified p [.leaf .modifier _ m, s] => do
    some (modify p (← Modifier.ofText? m) (← statement? s))
  | .node .openModified p [.leaf .modifier _ m, s] => do
    some (modify p (← Modifier.ofText? m) (← statement? s))
  | .node .closedFor p [_, _, .node .arguments _ vars, _, s] => do
    some (.loop p (← arguments? vars) (← statement? s) none)
  | .node .openFor p [_, _, .node .arguments _ vars, _, s] => do
    some (.loop p (← arguments? vars) (← statement? s) none)
  | .node .closedCall p [.leaf _ _ n, _, .node .arguments _ args, _, s] => do
    some (.call p n (← arguments? args) (← statement? s) none)
  | .node .openCall p [.leaf _ _ n, _, .node .arguments _ args, _, s] => do
    some (.call p n (← arguments? args) (← statement? s) none)
  | _ => none

/-- The statements in order. -/
def statements? : List Tree → Option (List Statement)
  | []     => some []
  | t :: r => do some ((← statement? t) :: (← statements? r))

end

theorem statement?_empty (p : Nat) (t : Text) :
    statement? (.leaf (.mark .semicolon) p t) = some (.empty p) := by
  simp [statement?]

/-- The script that the tree of a document spells. -/
def script? : Tree → Option Script
  | .node .document _ [.node .statements _ ss, _] => statements? ss
  | _                                            => none

end SolidScript.OfTree
