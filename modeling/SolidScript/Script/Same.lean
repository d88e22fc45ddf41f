import SolidScript.Script.Basic

/-!
# Script — equality

Two constructs are the same when they are built the same way from the same names, texts and
numbers, wherever they stand.  Numbers are compared as values.
-/

namespace SolidScript

mutual

/-- The same expression, places aside. -/
def Expr.same : Expr → Expr → Bool
  | .undef _,        .undef _         => true
  | .boolean _ a,    .boolean _ b     => a == b
  | .number _ a,     .number _ b      => a.same b
  | .text _ a,       .text _ b        => a == b
  | .variable _ a,   .variable _ b    => a == b
  | .member _ e a,   .member _ f b    => e.same f && a == b
  | .index _ a i,    .index _ b j     => a.same b && i.same j
  | .vector _ as,    .vector _ bs     => Expr.sameList as bs
  | .range _ a s b,  .range _ c t d   => a.same c && Expr.sameOption s t && b.same d
  | .call _ n as,    .call _ m bs     => n == m && Argument.sameList as bs
  | .comprehension _ ls as e, .comprehension _ ms bs f =>
    Argument.sameGroups ls ms && Argument.sameList as bs && e.same f
  | .unary _ o a,    .unary _ p b     => o == p && a.same b
  | .binary _ a o b, .binary _ c p d  => a.same c && o == p && b.same d
  | .ternary _ a b c, .ternary _ d e f => a.same d && b.same e && c.same f
  | .led _ l as e,   .led _ m bs f    => l == m && Argument.sameList as bs && e.same f
  | _,               _                => false

/-- The same expressions in order. -/
def Expr.sameList : List Expr → List Expr → Bool
  | [],      []      => true
  | a :: as, b :: bs => a.same b && Expr.sameList as bs
  | _,       _       => false

/-- The same expression, or none twice. -/
def Expr.sameOption : Option Expr → Option Expr → Bool
  | none,   none   => true
  | some a, some b => a.same b
  | _,      _      => false

/-- The same argument, places aside. -/
def Argument.same : Argument → Argument → Bool
  | .mk _ n a, .mk _ m b => n == m && a.same b

/-- The same arguments in order. -/
def Argument.sameList : List Argument → List Argument → Bool
  | [],      []      => true
  | a :: as, b :: bs => a.same b && Argument.sameList as bs
  | _,       _       => false

/-- The same groups of arguments in order. -/
def Argument.sameGroups : List (List Argument) → List (List Argument) → Bool
  | [],      []      => true
  | a :: as, b :: bs => Argument.sameList a b && Argument.sameGroups as bs
  | _,       _       => false

end

namespace Parameter

/-- The same parameter, places aside. -/
def same (a b : Parameter) : Bool := a.name == b.name && Expr.sameOption a.default b.default

/-- The same parameters in order. -/
def sameList : List Parameter → List Parameter → Bool
  | [],      []      => true
  | a :: as, b :: bs => a.same b && sameList as bs
  | _,       _       => false

end Parameter

mutual

/-- The same statement, places aside. -/
def Statement.same : Statement → Statement → Bool
  | .empty _,          .empty _          => true
  | .block _ as,       .block _ bs       => Statement.sameList as bs
  | .moduleDefinition _ n ps a, .moduleDefinition _ m qs b =>
    n == m && Parameter.sameList ps qs && a.same b
  | .functionDefinition _ n ps a, .functionDefinition _ m qs b =>
    n == m && Parameter.sameList ps qs && a.same b
  | .assignment _ n a, .assignment _ m b => n == m && a.same b
  | .call _ n as c k,  .call _ m bs d l  =>
    n == m && Argument.sameList as bs && c.same d && k == l
  | .loop _ as c k,    .loop _ bs d l    => Argument.sameList as bs && c.same d && k == l
  | .conditional _ e a x, .conditional _ f b y =>
    e.same f && a.same b && Statement.sameOption x y
  | .modified _ k a,   .modified _ l b   => k == l && a.same b
  | .file _ k p,       .file _ l q       => k == l && p == q
  | _,                 _                 => false

/-- The same statements in order. -/
def Statement.sameList : List Statement → List Statement → Bool
  | [],      []      => true
  | a :: as, b :: bs => a.same b && Statement.sameList as bs
  | _,       _       => false

/-- The same statement, or none twice. -/
def Statement.sameOption : Option Statement → Option Statement → Bool
  | none,   none   => true
  | some a, some b => a.same b
  | _,      _      => false

end

namespace Script

/-- The same statements in order, places aside. -/
def same (a b : Script) : Bool := Statement.sameList a b

/-- Which statements are the same as those that stand where they stand in the other script, up to
the end of the shorter one. -/
def pairwise (a b : Script) : List Bool := (a.zip b).map fun (s, t) => s.same t

end Script

end SolidScript
