import SolidScript.Grammar.Terminal

/-!
# Grammar — rules

The grammar of scripts.  Each rule has one production over terminals and rules.  Alternatives are
ordered: the first that matches is taken and never reconsidered.

Statements come in two families.  An open statement ends in an `if` without an `else`, through any
number of modifiers, children of calls, bodies of loops and branches after `else`.  A closed one
does not end so, but for a definition of a module, which is closed whatever its body is.  Only a
closed statement may stand between `if (…)` and `else`.  The body of a definition that stands there
is matched first and takes the `else` if it can, so the definition is no exception to the rule that
an `else` belongs to the nearest `if`.

A rule that only chooses or groups leaves no node of its own in a tree (`Rule.isGroup`); its pieces
stand in its place.
-/

namespace SolidScript

/-- A rule of the grammar. -/
inductive Rule where
  -- documents
  | document | statements | topStatement
  -- statements
  | statement | closedStatement | openStatement
  | block | blockItems
  | moduleDefinition | functionDefinition | assignment
  | closedIfElse | openIfElse | openIf
  | closedModified | openModified
  | closedFor | openFor
  | callName | closedCall | openCall
  -- parameters and arguments
  | assign | notAssign | trailingComma
  | parameters | parameterGroup | parameterItems | parameter | parameterDefault | defaultGroup
  | arguments | argumentGroup | argumentItems | argument | namedArgument | positionalArgument
  -- expressions
  | expression | letExpression | letRun | letClause
  | ternaryLevel | echoExpression | assertExpression | ternary
  | disjunction | comparison | sum | product
  | unaryLevel | signed | access | suffixes | suffix | memberSuffix | indexSuffix
  -- primaries
  | primary | parenthesized | functionCall
  | comprehension | letClauses
  | range | rangeStep | stepGroup
  | vector | vectorBody | vectorGroup | vectorItems
deriving DecidableEq, Repr

/-- A terminal or a rule. -/
inductive Piece where
  | term (t : Terminal)
  | rule (r : Rule)
deriving DecidableEq, Repr

/-- The right-hand side of a rule. -/
inductive Production where
  /-- All pieces, one after the other. -/
  | sequence (pieces : List Piece)
  /-- The first of the pieces that matches. -/
  | choice (pieces : List Piece)
  /-- The piece, or nothing. -/
  | maybe (piece : Piece)
  /-- The piece, any number of times. -/
  | many (piece : Piece)
  /-- The piece at least once, with the separator between two, if there is one. -/
  | chain (piece : Piece) (separator : Option Piece)
  /-- Nothing, where the terminal does not match. -/
  | notAhead (t : Terminal)
deriving DecidableEq, Repr

namespace Piece

/-- The mark `m`. -/
abbrev mark (m : Mark) : Piece := .term (.mark m)

/-- The keyword `k`. -/
abbrev word (k : Keyword) : Piece := .term (.keyword k)

end Piece

namespace Rule
open Piece Production

/-- The production of a rule. -/
def production : Rule → Production
  -- documents
  | document     => sequence [rule statements, term .endOfInput]
  | statements   => many (rule topStatement)
  | topStatement => choice [term .useFile, term .includeFile, rule statement]
  -- statements
  | statement       => choice [rule closedStatement, rule openStatement]
  | closedStatement =>
      choice [mark .semicolon, rule block, rule moduleDefinition, rule functionDefinition,
        rule assignment, rule closedIfElse, rule closedModified, rule closedFor, rule closedCall]
  | openStatement   =>
      choice [rule openIfElse, rule openIf, rule openModified, rule openFor, rule openCall]
  | block      => sequence [mark .openBrace, rule blockItems, mark .closeBrace]
  | blockItems => many (rule statement)
  | moduleDefinition =>
      sequence [word .moduleWord, term .identifier, mark .openParen, rule parameters,
        mark .closeParen, rule statement]
  | functionDefinition =>
      sequence [word .functionWord, term .identifier, mark .openParen, rule parameters,
        mark .closeParen, rule assign, rule expression, mark .semicolon]
  | assignment => sequence [term .identifier, rule assign, rule expression, mark .semicolon]
  | closedIfElse =>
      sequence [word .ifWord, mark .openParen, rule expression, mark .closeParen,
        rule closedStatement, word .elseWord, rule closedStatement]
  | openIfElse =>
      sequence [word .ifWord, mark .openParen, rule expression, mark .closeParen,
        rule closedStatement, word .elseWord, rule openStatement]
  | openIf =>
      sequence [word .ifWord, mark .openParen, rule expression, mark .closeParen, rule statement]
  | closedModified => sequence [term .modifier, rule closedStatement]
  | openModified   => sequence [term .modifier, rule openStatement]
  | closedFor =>
      sequence [word .forWord, mark .openParen, rule arguments, mark .closeParen,
        rule closedStatement]
  | openFor =>
      sequence [word .forWord, mark .openParen, rule arguments, mark .closeParen,
        rule openStatement]
  | callName => choice [term .identifier, word .echoWord, word .letWord, word .assertWord]
  | closedCall =>
      sequence [rule callName, mark .openParen, rule arguments, mark .closeParen,
        rule closedStatement]
  | openCall =>
      sequence [rule callName, mark .openParen, rule arguments, mark .closeParen,
        rule openStatement]
  -- parameters and arguments
  | assign        => sequence [mark .assign, rule notAssign]
  | notAssign     => notAhead (.mark .assign)
  | trailingComma => maybe (mark .comma)
  | parameters       => maybe (rule parameterGroup)
  | parameterGroup   => sequence [rule parameterItems, rule trailingComma]
  | parameterItems   => chain (rule parameter) (some (mark .comma))
  | parameter        => sequence [term .identifier, rule parameterDefault]
  | parameterDefault => maybe (rule defaultGroup)
  | defaultGroup     => sequence [rule assign, rule expression]
  | arguments          => maybe (rule argumentGroup)
  | argumentGroup      => sequence [rule argumentItems, rule trailingComma]
  | argumentItems      => chain (rule argument) (some (mark .comma))
  | argument           => choice [rule namedArgument, rule positionalArgument]
  | namedArgument      => sequence [term .identifier, rule assign, rule expression]
  | positionalArgument => sequence [rule expression]
  -- expressions
  | expression    => choice [rule letExpression, rule ternaryLevel]
  | letExpression => sequence [rule letRun, rule ternaryLevel]
  | letRun        => chain (rule letClause) none
  | letClause     => sequence [word .letWord, mark .openParen, rule arguments, mark .closeParen]
  | ternaryLevel  =>
      choice [rule echoExpression, rule assertExpression, rule ternary, rule disjunction]
  | echoExpression =>
      sequence [word .echoWord, mark .openParen, rule arguments, mark .closeParen, rule expression]
  | assertExpression =>
      sequence [word .assertWord, mark .openParen, rule arguments, mark .closeParen,
        rule expression]
  | ternary =>
      sequence [rule disjunction, mark .question, rule expression, mark .colon, rule expression]
  | disjunction => chain (rule comparison) (some (term .logical))
  | comparison  => chain (rule sum) (some (term .comparison))
  | sum         => chain (rule product) (some (term .additive))
  | product     => chain (rule unaryLevel) (some (term .multiplicative))
  | unaryLevel  => choice [rule signed, rule access]
  | signed      => sequence [term .unary, rule unaryLevel]
  | access      => sequence [rule primary, rule suffixes]
  | suffixes    => many (rule suffix)
  | suffix      => choice [rule memberSuffix, rule indexSuffix]
  | memberSuffix => sequence [term .period, term .identifier]
  | indexSuffix  => sequence [mark .openBracket, rule expression, mark .closeBracket]
  -- primaries
  | primary =>
      choice [rule parenthesized, word .undefWord, word .trueWord, word .falseWord, term .string,
        term .number, rule functionCall, rule comprehension, rule range, rule vector,
        term .identifier]
  | parenthesized => sequence [mark .openParen, rule expression, mark .closeParen]
  | functionCall  =>
      sequence [term .identifier, mark .openParen, rule arguments, mark .closeParen]
  | comprehension =>
      sequence [mark .openBracket, rule letClauses, word .forWord, mark .openParen,
        rule arguments, mark .closeParen, rule expression, mark .closeBracket]
  | letClauses => many (rule letClause)
  | range =>
      sequence [mark .openBracket, rule expression, mark .colon, rule expression, rule rangeStep,
        mark .closeBracket]
  | rangeStep => maybe (rule stepGroup)
  | stepGroup => sequence [mark .colon, rule expression]
  | vector      => sequence [mark .openBracket, rule vectorBody, mark .closeBracket]
  | vectorBody  => maybe (rule vectorGroup)
  | vectorGroup => sequence [rule vectorItems, rule trailingComma]
  | vectorItems => chain (rule expression) (some (mark .comma))

/-- The rule leaves no node of its own: it chooses, looks ahead, or groups pieces of another. -/
def isGroup : Rule → Bool
  | topStatement | statement | closedStatement | openStatement | callName
  | notAssign | trailingComma | parameterGroup | parameterItems | defaultGroup
  | argumentGroup | argumentItems | argument
  | expression | ternaryLevel | unaryLevel | suffix | primary
  | stepGroup | vectorGroup | vectorItems => true
  | _ => false

end Rule

end SolidScript
