import SolidScript.Script.Basic

/-!
# Script — how a statement ends

The statement that a statement ends in: the child of a call, the body of a loop or of a module, the
target of a modifier, the branch after `else`.  Following it again and again leads to whatever
could take an `else` that comes next.
-/

namespace SolidScript.Statement

/-- The statement that the statement ends in. -/
def last? : Statement → Option Statement
  | .call _ _ _ s _             => some s
  | .loop _ _ s _               => some s
  | .moduleDefinition _ _ _ s   => some s
  | .modified _ _ s             => some s
  | .conditional _ _ _ (some s) => some s
  | _                           => none

/-- The first statement ends in the second, or is it. -/
inductive Leads : Statement → Statement → Prop where
  | here (s : Statement) : Leads s s
  | onward {s t u : Statement} (h : s.last? = some t) (k : Leads t u) : Leads s u

/-- A conditional without an `else`. -/
def IsOpen : Statement → Prop
  | .conditional _ _ _ none => True
  | _                       => False

end SolidScript.Statement
