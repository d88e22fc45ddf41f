import SolidScript.Grammar.Rule

/-!
# Grammar — trees

What a match leaves: the lexemes in order as leaves, gaps left out, under the rules that took
them.  A node starts where its first leaf starts.
-/

namespace SolidScript

/-- A tree of matched rules over matched lexemes. -/
inductive Tree where
  | leaf (t : Terminal) (start : Nat) (text : Text)
  | node (r : Rule) (start : Option Nat) (children : List Tree)

namespace Tree

/-- Where the tree starts, if it has a leaf. -/
def start? : Tree → Option Nat
  | leaf _ start _ => some start
  | node _ start _ => start

/-- Where the first of the trees that has a leaf starts. -/
def firstStart : List Tree → Option Nat
  | []      => none
  | t :: ts => t.start?.or (firstStart ts)

/-- What a rule leaves of the trees of its pieces: a node, or for a group the trees themselves. -/
def gather (r : Rule) (ts : List Tree) : List Tree :=
  if r.isGroup then ts else [.node r (firstStart ts) ts]

end Tree

end SolidScript
