import SolidScript.Script.Render

/-!
# Script — grouping of operators

Binary operators come in four tiers, from the loosest: connectives, comparisons, sums, products.
Operands with operators between them group by the rightmost operator of the loosest tier that
occurs: it is applied last, to what stands on either side of it, grouped the same way.

An operand may have signs before it, which are applied to it alone, the last one first.  A formula
is operands with operators between them, as it can be written.
-/

namespace SolidScript

/-- How tight an operator binds. -/
def BinaryOp.tier : BinaryOp → Nat
  | .connective _                             => 0
  | .operator .gt | .operator .ge | .operator .eq => 1
  | .operator .ne | .operator .le | .operator .lt => 1
  | .operator .add | .operator .sub           => 2
  | .operator .mul | .operator .div | .operator .rem => 3

/-- An operand and the operators and operands after it. -/
structure OperatorChain where
  first : Expr
  rest : List (BinaryOp × Expr)

/-- The chain groups to the expression. -/
inductive OperatorChain.Groups : OperatorChain → Expr → Prop where
  | operand (e : Expr) : Groups ⟨e, []⟩ e
  /-- The operator `o` is of the loosest tier and no operator after it is of that tier. -/
  | split {first second l r : Expr} {before after : List (BinaryOp × Expr)} {o : BinaryOp}
      {place : Place}
      (left : ∀ p ∈ before, o.tier ≤ p.1.tier) (right : ∀ p ∈ after, o.tier < p.1.tier)
      (hl : Groups ⟨first, before⟩ l) (hr : Groups ⟨second, after⟩ r) :
      Groups ⟨first, before ++ (o, second) :: after⟩ (.binary place l o r)

/-! ### Formulas -/

/-- A sign before an operand. -/
inductive Sign where
  | minus | exclamation | plus
deriving DecidableEq, Repr

namespace Sign

/-- How the sign is written. -/
def char : Sign → Char
  | minus       => '-'
  | exclamation => '!'
  | plus        => '+'

/-- What the sign makes of an expression.  A plus leaves it as it is. -/
def apply : Sign → Expr → Expr
  | minus,       e => .unary none .negative e
  | exclamation, e => .unary none .not e
  | plus,        e => e

end Sign

/-- Signs, some perhaps with a blank behind them, and an expression. -/
structure Operand where
  signs : List (Sign × Bool)
  base : Expr

namespace Operand

/-- What the signs make of the expression. -/
def value (t : Operand) : Expr := t.signs.foldr (fun s e => s.1.apply e) t.base

/-- The signs and the expression as text. -/
def text (t : Operand) : Text :=
  t.signs.foldr (fun s u => s.1.char :: (if s.2 then ' ' :: u else u)) t.base.render

end Operand

/-- Operands with operators between them. -/
structure Formula where
  first : Operand
  rest : List (BinaryOp × Operand)

namespace Formula

/-- The operands, in order. -/
def operands (f : Formula) : List Operand := f.first :: f.rest.map Prod.snd

/-- What is grouped: the values of the operands and the operators between them. -/
def chain (f : Formula) : OperatorChain := ⟨f.first.value, f.rest.map fun p => (p.1, p.2.value)⟩

/-- The operands and operators as text, with a blank between neighbours. -/
def text (f : Formula) : Text :=
  f.first.text ++ f.rest.flatMap fun p => ' ' :: p.1.text ++ ' ' :: p.2.text

/-- The assignment of the formula to `x`. -/
def assigned (f : Formula) : Text := Text.lit "x = " ++ f.text ++ [';']

end Formula

end SolidScript
