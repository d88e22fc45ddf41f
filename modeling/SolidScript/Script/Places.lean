import SolidScript.Script.Basic

/-!
# Script — places changed

A script with every place changed the same way: `moved` puts it behind so many characters more,
and `bare` forgets where it was read.
-/

namespace SolidScript

mutual

/-- The expression with its places changed. -/
def Expr.mapPlaces (f : Place → Place) : Expr → Expr
  | .undef p         => .undef (f p)
  | .boolean p b     => .boolean (f p) b
  | .number p v      => .number (f p) v
  | .text p t        => .text (f p) t
  | .variable p n    => .variable (f p) n
  | .member p e n    => .member (f p) (e.mapPlaces f) n
  | .index p a i     => .index (f p) (a.mapPlaces f) (i.mapPlaces f)
  | .vector p es     => .vector (f p) (Expr.mapPlacesList f es)
  | .range p a s b   => .range (f p) (a.mapPlaces f) (Expr.mapPlacesOption f s) (b.mapPlaces f)
  | .call p n as     => .call (f p) n (Argument.mapPlacesList f as)
  | .comprehension p gs as e =>
    .comprehension (f p) (Argument.mapPlacesGroups f gs) (Argument.mapPlacesList f as)
      (e.mapPlaces f)
  | .unary p o e     => .unary (f p) o (e.mapPlaces f)
  | .binary p a o b  => .binary (f p) (a.mapPlaces f) o (b.mapPlaces f)
  | .ternary p c a b => .ternary (f p) (c.mapPlaces f) (a.mapPlaces f) (b.mapPlaces f)
  | .led p l as e    => .led (f p) l (Argument.mapPlacesList f as) (e.mapPlaces f)

/-- The expressions with their places changed. -/
def Expr.mapPlacesList (f : Place → Place) : List Expr → List Expr
  | []      => []
  | e :: es => e.mapPlaces f :: Expr.mapPlacesList f es

/-- The expression, if there is one, with its places changed. -/
def Expr.mapPlacesOption (f : Place → Place) : Option Expr → Option Expr
  | none   => none
  | some e => some (e.mapPlaces f)

/-- The argument with its places changed. -/
def Argument.mapPlaces (f : Place → Place) : Argument → Argument
  | .mk p n e => .mk (f p) n (e.mapPlaces f)

/-- The arguments with their places changed. -/
def Argument.mapPlacesList (f : Place → Place) : List Argument → List Argument
  | []      => []
  | a :: as => a.mapPlaces f :: Argument.mapPlacesList f as

/-- The groups of arguments with their places changed. -/
def Argument.mapPlacesGroups (f : Place → Place) : List (List Argument) → List (List Argument)
  | []      => []
  | g :: gs => Argument.mapPlacesList f g :: Argument.mapPlacesGroups f gs

end

/-- The parameter with its places changed. -/
def Parameter.mapPlaces (f : Place → Place) (p : Parameter) : Parameter :=
  ⟨f p.place, p.name, Expr.mapPlacesOption f p.default⟩

mutual

/-- The statement with its places changed. -/
def Statement.mapPlaces (f : Place → Place) : Statement → Statement
  | .empty p         => .empty (f p)
  | .block p ss      => .block (f p) (Statement.mapPlacesList f ss)
  | .moduleDefinition p n ps s =>
    .moduleDefinition (f p) n (ps.map (Parameter.mapPlaces f)) (s.mapPlaces f)
  | .functionDefinition p n ps e =>
    .functionDefinition (f p) n (ps.map (Parameter.mapPlaces f)) (e.mapPlaces f)
  | .assignment p n e => .assignment (f p) n (e.mapPlaces f)
  | .call p n as s m  => .call (f p) n (Argument.mapPlacesList f as) (s.mapPlaces f) m
  | .loop p as s m    => .loop (f p) (Argument.mapPlacesList f as) (s.mapPlaces f) m
  | .conditional p e a b =>
    .conditional (f p) (e.mapPlaces f) (a.mapPlaces f) (Statement.mapPlacesOption f b)
  | .modified p m s   => .modified (f p) m (s.mapPlaces f)
  | .file p k t       => .file (f p) k t

/-- The statements with their places changed. -/
def Statement.mapPlacesList (f : Place → Place) : List Statement → List Statement
  | []      => []
  | s :: ss => s.mapPlaces f :: Statement.mapPlacesList f ss

/-- The statement, if there is one, with its places changed. -/
def Statement.mapPlacesOption (f : Place → Place) : Option Statement → Option Statement
  | none   => none
  | some s => some (s.mapPlaces f)

end

/-- The expression without places. -/
def Expr.bare (e : Expr) : Expr := e.mapPlaces fun _ => none

namespace Script

/-- The script as it stands behind `n` characters more. -/
def moved (n : Nat) (s : Script) : Script := Statement.mapPlacesList (·.map (· + n)) s

/-- The script without places. -/
def bare (s : Script) : Script := Statement.mapPlacesList (fun _ => none) s

end Script

mutual

/-- Places that stay where they are leave the expression as it is. -/
theorem Expr.mapPlaces_id : ∀ e : Expr, e.mapPlaces id = e
  | .undef _ | .boolean _ _ | .number _ _ | .text _ _ | .variable _ _ => by
    simp only [Expr.mapPlaces, id]
  | .member _ e _ | .unary _ _ e => by
    simp only [Expr.mapPlaces, id, Expr.mapPlaces_id e]
  | .index _ a b | .binary _ a _ b => by
    simp only [Expr.mapPlaces, id, Expr.mapPlaces_id a, Expr.mapPlaces_id b]
  | .vector _ es => by simp only [Expr.mapPlaces, id, Expr.mapPlacesList_id es]
  | .range _ a s b => by
    simp only [Expr.mapPlaces, id, Expr.mapPlaces_id a, Expr.mapPlacesOption_id s,
      Expr.mapPlaces_id b]
  | .call _ _ as => by simp only [Expr.mapPlaces, id, Argument.mapPlacesList_id as]
  | .comprehension _ gs as e => by
    simp only [Expr.mapPlaces, id, Argument.mapPlacesGroups_id gs, Argument.mapPlacesList_id as,
      Expr.mapPlaces_id e]
  | .ternary _ c a b => by
    simp only [Expr.mapPlaces, id, Expr.mapPlaces_id c, Expr.mapPlaces_id a, Expr.mapPlaces_id b]
  | .led _ _ as e => by
    simp only [Expr.mapPlaces, id, Argument.mapPlacesList_id as, Expr.mapPlaces_id e]

theorem Expr.mapPlacesList_id : ∀ es : List Expr, Expr.mapPlacesList id es = es
  | [] => by simp only [Expr.mapPlacesList]
  | e :: es => by
    simp only [Expr.mapPlacesList, Expr.mapPlaces_id e, Expr.mapPlacesList_id es]

theorem Expr.mapPlacesOption_id : ∀ e : Option Expr, Expr.mapPlacesOption id e = e
  | none => by simp only [Expr.mapPlacesOption]
  | some e => by simp only [Expr.mapPlacesOption, Expr.mapPlaces_id e]

theorem Argument.mapPlaces_id : ∀ a : Argument, a.mapPlaces id = a
  | .mk _ _ e => by simp only [Argument.mapPlaces, id, Expr.mapPlaces_id e]

theorem Argument.mapPlacesList_id : ∀ as : List Argument, Argument.mapPlacesList id as = as
  | [] => by simp only [Argument.mapPlacesList]
  | a :: as => by
    simp only [Argument.mapPlacesList, Argument.mapPlaces_id a, Argument.mapPlacesList_id as]

theorem Argument.mapPlacesGroups_id :
    ∀ gs : List (List Argument), Argument.mapPlacesGroups id gs = gs
  | [] => by simp only [Argument.mapPlacesGroups]
  | g :: gs => by
    simp only [Argument.mapPlacesGroups, Argument.mapPlacesList_id g,
      Argument.mapPlacesGroups_id gs]

end

theorem Parameter.mapPlaces_id (p : Parameter) : p.mapPlaces id = p := by
  simp only [Parameter.mapPlaces, id, Expr.mapPlacesOption_id]

mutual

/-- Places that stay where they are leave the statement as it is. -/
theorem Statement.mapPlaces_id : ∀ s : Statement, s.mapPlaces id = s
  | .empty _ | .file _ _ _ => by simp only [Statement.mapPlaces, id]
  | .block _ ss => by simp only [Statement.mapPlaces, id, Statement.mapPlacesList_id ss]
  | .moduleDefinition _ _ ps s => by
    simp only [Statement.mapPlaces, id, funext Parameter.mapPlaces_id, List.map_id',
      Statement.mapPlaces_id s]
  | .functionDefinition _ _ ps e => by
    simp only [Statement.mapPlaces, id, funext Parameter.mapPlaces_id, List.map_id',
      Expr.mapPlaces_id e]
  | .assignment _ _ e => by simp only [Statement.mapPlaces, id, Expr.mapPlaces_id e]
  | .call _ _ as s _ | .loop _ as s _ => by
    simp only [Statement.mapPlaces, id, Argument.mapPlacesList_id as, Statement.mapPlaces_id s]
  | .conditional _ e a b => by
    simp only [Statement.mapPlaces, id, Expr.mapPlaces_id e, Statement.mapPlaces_id a,
      Statement.mapPlacesOption_id b]
  | .modified _ _ s => by simp only [Statement.mapPlaces, id, Statement.mapPlaces_id s]

theorem Statement.mapPlacesList_id :
    ∀ ss : List Statement, Statement.mapPlacesList id ss = ss
  | [] => by simp only [Statement.mapPlacesList]
  | s :: ss => by
    simp only [Statement.mapPlacesList, Statement.mapPlaces_id s, Statement.mapPlacesList_id ss]

theorem Statement.mapPlacesOption_id :
    ∀ s : Option Statement, Statement.mapPlacesOption id s = s
  | none => by simp only [Statement.mapPlacesOption]
  | some s => by simp only [Statement.mapPlacesOption, Statement.mapPlaces_id s]

end

section Twice
variable (f g : Place → Place)

mutual

/-- Places that are changed twice are changed once. -/
theorem Expr.mapPlaces_mapPlaces : ∀ e : Expr, (e.mapPlaces f).mapPlaces g = e.mapPlaces (g ∘ f)
  | .undef _ | .boolean _ _ | .number _ _ | .text _ _ | .variable _ _ => by
    simp only [Expr.mapPlaces, Function.comp_apply]
  | .member _ e _ | .unary _ _ e => by
    simp only [Expr.mapPlaces, Function.comp_apply, Expr.mapPlaces_mapPlaces e]
  | .index _ a b | .binary _ a _ b => by
    simp only [Expr.mapPlaces, Function.comp_apply, Expr.mapPlaces_mapPlaces a,
      Expr.mapPlaces_mapPlaces b]
  | .vector _ es => by
    simp only [Expr.mapPlaces, Function.comp_apply, Expr.mapPlacesList_mapPlacesList es]
  | .range _ a s b => by
    simp only [Expr.mapPlaces, Function.comp_apply, Expr.mapPlaces_mapPlaces a,
      Expr.mapPlacesOption_mapPlacesOption s, Expr.mapPlaces_mapPlaces b]
  | .call _ _ as => by
    simp only [Expr.mapPlaces, Function.comp_apply, Argument.mapPlacesList_mapPlacesList as]
  | .comprehension _ gs as e => by
    simp only [Expr.mapPlaces, Function.comp_apply, Argument.mapPlacesGroups_mapPlacesGroups gs,
      Argument.mapPlacesList_mapPlacesList as, Expr.mapPlaces_mapPlaces e]
  | .ternary _ c a b => by
    simp only [Expr.mapPlaces, Function.comp_apply, Expr.mapPlaces_mapPlaces c,
      Expr.mapPlaces_mapPlaces a, Expr.mapPlaces_mapPlaces b]
  | .led _ _ as e => by
    simp only [Expr.mapPlaces, Function.comp_apply, Argument.mapPlacesList_mapPlacesList as,
      Expr.mapPlaces_mapPlaces e]

theorem Expr.mapPlacesList_mapPlacesList : ∀ es : List Expr,
    Expr.mapPlacesList g (Expr.mapPlacesList f es) = Expr.mapPlacesList (g ∘ f) es
  | [] => by simp only [Expr.mapPlacesList]
  | e :: es => by
    simp only [Expr.mapPlacesList, Expr.mapPlaces_mapPlaces e,
      Expr.mapPlacesList_mapPlacesList es]

theorem Expr.mapPlacesOption_mapPlacesOption : ∀ o : Option Expr,
    Expr.mapPlacesOption g (Expr.mapPlacesOption f o) = Expr.mapPlacesOption (g ∘ f) o
  | none => by simp only [Expr.mapPlacesOption]
  | some e => by simp only [Expr.mapPlacesOption, Expr.mapPlaces_mapPlaces e]

theorem Argument.mapPlaces_mapPlaces : ∀ a : Argument,
    (a.mapPlaces f).mapPlaces g = a.mapPlaces (g ∘ f)
  | .mk _ _ e => by
    simp only [Argument.mapPlaces, Function.comp_apply, Expr.mapPlaces_mapPlaces e]

theorem Argument.mapPlacesList_mapPlacesList : ∀ as : List Argument,
    Argument.mapPlacesList g (Argument.mapPlacesList f as) = Argument.mapPlacesList (g ∘ f) as
  | [] => by simp only [Argument.mapPlacesList]
  | a :: as => by
    simp only [Argument.mapPlacesList, Argument.mapPlaces_mapPlaces a,
      Argument.mapPlacesList_mapPlacesList as]

theorem Argument.mapPlacesGroups_mapPlacesGroups : ∀ gs : List (List Argument),
    Argument.mapPlacesGroups g (Argument.mapPlacesGroups f gs) =
      Argument.mapPlacesGroups (g ∘ f) gs
  | [] => by simp only [Argument.mapPlacesGroups]
  | h :: gs => by
    simp only [Argument.mapPlacesGroups, Argument.mapPlacesList_mapPlacesList h,
      Argument.mapPlacesGroups_mapPlacesGroups gs]

end

/-- Changing places is forgotten with them. -/
theorem Expr.bare_mapPlaces (e : Expr) : (e.mapPlaces f).bare = e.bare :=
  Expr.mapPlaces_mapPlaces f _ e

end Twice

end SolidScript
