import SolidScript.Script.Render
import SolidScript.Script.Same

/-!
# Script — nodes

The constructs of a script, whatever their kind, as nodes of one tree.  The children of a node are
the constructs that stand directly in it, in the order in which they are written.

* `Node.Within`: a node is itself, a child, or within a child, of another.
* `Node.name?`: the name that a node has.
-/

namespace SolidScript

/-- A construct of any kind. -/
inductive Node where
  | expr (e : Expr)
  | argument (a : Argument)
  | parameter (p : Parameter)
  | statement (s : Statement)

namespace Node

/-- Where the construct starts. -/
def place : Node → Place
  | expr e      => e.place
  | argument a  => a.place
  | parameter p => p.place
  | statement s => s.place

/-- The construct as text. -/
def render : Node → Text
  | expr e      => e.render
  | argument a  => a.render
  | parameter p => p.render
  | statement s => s.render

/-- The same construct, places aside. -/
def same : Node → Node → Bool
  | expr a,      expr b      => a.same b
  | argument a,  argument b  => a.same b
  | parameter a, parameter b => a.same b
  | statement a, statement b => a.same b
  | _,           _           => false

/-- The name that the construct has: of a variable, a field, a function, a module, a parameter or an
argument. -/
def name? : Node → Option Text
  | expr (.variable _ n) | expr (.member _ _ n) | expr (.call _ n _) => some n
  | argument (.mk _ n _) => n
  | parameter p          => some p.name
  | statement (.moduleDefinition _ n _ _) | statement (.functionDefinition _ n _ _) => some n
  | statement (.assignment _ n _) | statement (.call _ n _ _ _) => some n
  | _ => none

/-- The constructs directly in an expression. -/
def ofExpr : Expr → List Node
  | .undef _ | .boolean _ _ | .number _ _ | .text _ _ | .variable _ _ => []
  | .member _ e _    => [expr e]
  | .index _ a i     => [expr a, expr i]
  | .vector _ es     => es.map expr
  | .range _ a s b   => expr a :: (s.toList.map expr ++ [expr b])
  | .call _ _ as     => as.map argument
  | .comprehension _ gs as e => gs.flatten.map argument ++ as.map argument ++ [expr e]
  | .unary _ _ e     => [expr e]
  | .binary _ a _ b  => [expr a, expr b]
  | .ternary _ c a b => [expr c, expr a, expr b]
  | .led _ _ as e    => as.map argument ++ [expr e]

/-- The constructs directly in a statement. -/
def ofStatement : Statement → List Node
  | .empty _ | .file _ _ _             => []
  | .block _ ss                        => ss.map statement
  | .moduleDefinition _ _ ps s         => ps.map parameter ++ [statement s]
  | .functionDefinition _ _ ps e       => ps.map parameter ++ [expr e]
  | .assignment _ _ e                  => [expr e]
  | .call _ _ as s _                   => as.map argument ++ [statement s]
  | .loop _ as s _                     => as.map argument ++ [statement s]
  | .conditional _ e a b               => expr e :: statement a :: b.toList.map statement
  | .modified _ _ s                    => [statement s]

/-- The constructs directly in a construct, in the order in which they are written. -/
def children : Node → List Node
  | expr e              => ofExpr e
  | argument (.mk _ _ e) => [expr e]
  | parameter p         => p.default.toList.map expr
  | statement s         => ofStatement s

/-- The first node stands in the second, at any depth, or is the second. -/
inductive Within : Node → Node → Prop where
  | self (n : Node) : Within n n
  | child {m n c : Node} (h : c ∈ n.children) (w : Within m c) : Within m n

theorem Within.trans {l m n : Node} (h : Within l m) (k : Within m n) : Within l n := by
  induction k with
  | self => exact h
  | child hc _ ih => exact .child hc ih

/-- What holds of everything in a node holds of it, and of everything in its children. -/
theorem forall_within_iff {P : Node → Prop} {n : Node} :
    (∀ m, Within m n → P m) ↔ P n ∧ ∀ c ∈ n.children, ∀ m, Within m c → P m := by
  constructor
  · exact fun h => ⟨h n (.self n), fun c hc m hm => h m (.child hc hm)⟩
  · rintro ⟨here, deeper⟩ m hm
    cases hm with
    | self => exact here
    | child hc hm => exact deeper _ hc m hm

end Node

/-- The node stands in the script. -/
def Script.Holds (s : Script) (n : Node) : Prop := ∃ t ∈ s, n.Within (.statement t)

end SolidScript
