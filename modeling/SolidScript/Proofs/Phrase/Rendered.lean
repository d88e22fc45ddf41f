import SolidScript.Proofs.Number.Printed
import SolidScript.Proofs.Phrase.Written
import SolidScript.Proofs.Shape

/-!
# Phrase — the tokens of rendered constructs

In a script of the shape of one that is read, the tokens of the line of a construct spell the
construct again, as one that starts where the source does (`WellShaped.spelt`).  Operations are
rendered in parentheses, so every expression can be accessed and stands at any level above that.
-/

namespace SolidScript
open Line (commas mark name word)
open Token (IsWhole reclassify)

/-- The place at the start of a source, for every construct. -/
def Place.first : Place → Place := fun _ => some 0

/-! ### Tokens -/

/-- A text that is one token reads as that token where nothing follows it. -/
theorem Token.IsWhole.begins {kind : TokenKind} {t : Text} (h : IsWhole kind t) :
    Lexeme.Begins kind t [] := by
  obtain ⟨next, laid, -⟩ := Grammar.laid_of_reads (Grammar.ofSource_eq_ok_iff.1 h)
  obtain ⟨there, hat, -⟩ := Grammar.laid_cons_iff.1 laid
  exact hat.alone

/-- A name that is one token is no keyword. -/
theorem reclassify_of_isWhole {n : Text} (h : IsWhole .identifier n) :
    reclassify .identifier n = .identifier := by
  cases h.begins with
  | plain front =>
    obtain ⟨k, -, -, -, kind, -⟩ := Lexeme.spells_of_front front
    obtain rfl := Grammar.eq_of_reclassify kind.symm (by decide)
    exact kind.symm
  | useFile _ he | includeFile _ he => cases he

/-- A name that is one token is taken for a name. -/
theorem isName_of_isWhole {n : Text} (h : IsWhole .identifier n) :
    (⟨reclassify .identifier n, n, 0⟩ : Token).IsName := reclassify_of_isWhole h

/-- The keywords that can be called are callees. -/
theorem isCallee_of_mem {n : Text} (h : n ∈ Node.keywordCallees) :
    (⟨reclassify .identifier n, n, 0⟩ : Token).IsCallee := by
  have keywords : ∀ n ∈ Node.keywordCallees,
      (⟨reclassify .identifier n, n, 0⟩ : Token).IsWord .echoWord ∨
      (⟨reclassify .identifier n, n, 0⟩ : Token).IsWord .letWord ∨
      (⟨reclassify .identifier n, n, 0⟩ : Token).IsWord .assertWord := by decide
  exact .inr (keywords n h)

/-- Every binary operator belongs to a tier. -/
theorem BinaryOp.exists_tier (o : BinaryOp) :
    ∃ t : Tier, t.terminal.Accepts ⟨.symbol, o.text, 0⟩ := by
  have among : ∃ t ∈ [Tier.disjunction, .comparison, .sum, .product],
      t.terminal.Accepts ⟨.symbol, o.text, 0⟩ := by
    rcases o with c | o
    · cases c <;> decide
    · cases o <;> decide
  obtain ⟨t, -, h⟩ := among
  exact ⟨t, h⟩

theorem UnaryOp.accepts (o : UnaryOp) : Terminal.unary.Accepts ⟨.symbol, o.text, 0⟩ := by
  cases o <;> decide

theorem Modifier.accepts (m : Modifier) : Terminal.modifier.Accepts ⟨.symbol, m.text, 0⟩ := by
  cases m <;> decide

/-- A sign that is written before an expression is read back as its operator. -/
theorem OfTree.signed?_text (p : Place) (o : UnaryOp) (e : Expr) :
    signed? p o.text e = some (.unary p o e) := by cases o <;> rfl

/-! ### Levels -/

/-- What stands at a tier stands at the loosest one. -/
theorem Spells.loosest {t : Tier} {e : Expr} {ks : List Token} (h : Spells (.expr (.tier t) e) ks) :
    Spells (.expr (.tier .disjunction) e) ks := by
  have up {t : Tier} (h : Spells (.expr t.next e) ks) : Spells (.expr (.tier t) e) ks := .operand h
  cases t with
  | disjunction => exact h
  | comparison => exact up h
  | sum => exact up (up (t := .comparison) h)
  | product => exact up (up (t := .comparison) (up (t := .sum) h))

/-- What can be accessed stands at all levels above that. -/
theorem Spells.lift {e : Expr} {ks : List Token} (h : Spells (.expr .access e) ks) :
    ∀ l : Level, l ≠ .primary → Spells (.expr l e) ks := by
  have up {t : Tier} (h : Spells (.expr t.next e) ks) : Spells (.expr (.tier t) e) ks := .operand h
  have unary : Spells (.expr .unary e) ks := .unsigned h
  have product : Spells (.expr (.tier .product) e) ks := up unary
  have sum : Spells (.expr (.tier .sum) e) ks := up product
  have comparison : Spells (.expr (.tier .comparison) e) ks := up sum
  have ternary : Spells (.expr .ternary e) ks := .unconditional comparison.loosest
  intro l hl
  cases l with
  | expression => exact .unbound ternary
  | ternary => exact ternary
  | tier t => cases t <;> first | assumption | exact comparison.loosest
  | unary => exact unary
  | access => exact h
  | primary => exact absurd rfl hl

/-! ### Constructs of a script -/

/-- What passes to every construct from those directly in it, in scripts of the shape of what is read
and with fields like these. -/
structure Node.Formers (P : Text → Prop) (Q : Node → Prop) : Prop where
  undef (p : Place) : Q (expr (.undef p))
  boolean (p : Place) (b : Bool) : Q (expr (.boolean p b))
  number (p : Place) {v : Number.Double} (h : v.IsSingle) : Q (expr (.number p v))
  text (p : Place) {t : Text} (h : IsWhole .string ('"' :: (t ++ ['"']))) : Q (expr (.text p t))
  name (p : Place) {n : Text} (hn : IsWhole .identifier n) : Q (expr (.variable p n))
  member (p : Place) {e : Expr} {n : Text} (h : Q (expr e)) (hn : IsWhole .identifier n)
    (field : P n) : Q (expr (.member p e n))
  index (p : Place) {a i : Expr} (ha : Q (expr a)) (hi : Q (expr i)) : Q (expr (.index p a i))
  vector (p : Place) {es : List Expr} (h : ∀ e ∈ es, Q (expr e)) : Q (expr (.vector p es))
  range (p : Place) {a b : Expr} {s : Option Expr} (ha : Q (expr a)) (hs : ∀ e ∈ s, Q (expr e))
    (hb : Q (expr b)) : Q (expr (.range p a s b))
  call (p : Place) {n : Text} {as : List Argument} (hn : IsWhole .identifier n)
    (h : ∀ a ∈ as, Q (argument a)) : Q (expr (.call p n as))
  comprehension (p : Place) {gs : List (List Argument)} {as : List Argument} {e : Expr}
    (hg : ∀ g ∈ gs, ∀ a ∈ g, Q (argument a)) (ha : ∀ a ∈ as, Q (argument a)) (he : Q (expr e)) :
    Q (expr (.comprehension p gs as e))
  unary (p : Place) (o : UnaryOp) {e : Expr} (h : Q (expr e)) : Q (expr (.unary p o e))
  binary (p : Place) (o : BinaryOp) {a b : Expr} (ha : Q (expr a)) (hb : Q (expr b)) :
    Q (expr (.binary p a o b))
  ternary (p : Place) {c a b : Expr} (hc : Q (expr c)) (ha : Q (expr a)) (hb : Q (expr b)) :
    Q (expr (.ternary p c a b))
  led (p : Place) (l : Lead) {as : List Argument} {e : Expr} (ha : ∀ a ∈ as, Q (argument a))
    (he : Q (expr e)) : Q (expr (.led p l as e))
  positional (p : Place) {e : Expr} (h : Q (expr e)) : Q (argument (.mk p none e))
  named (p : Place) {n : Text} {e : Expr} (hn : IsWhole .identifier n) (h : Q (expr e)) :
    Q (argument (.mk p (some n) e))
  parameter (p : Place) {n : Text} {d : Option Expr} (hn : IsWhole .identifier n)
    (h : ∀ e ∈ d, Q (expr e)) : Q (parameter ⟨p, n, d⟩)
  empty (p : Place) : Q (statement (.empty p))
  block (p : Place) {ss : List Statement} (h : ∀ s ∈ ss, Q (statement s)) :
    Q (statement (.block p ss))
  moduleDefinition (p : Place) {n : Text} {ps : List Parameter} {s : Statement}
    (hn : IsWhole .identifier n) (hp : ∀ p ∈ ps, Q (Node.parameter p)) (h : Q (statement s)) :
    Q (statement (.moduleDefinition p n ps s))
  functionDefinition (p : Place) {n : Text} {ps : List Parameter} {e : Expr}
    (hn : IsWhole .identifier n) (hp : ∀ p ∈ ps, Q (Node.parameter p)) (h : Q (expr e)) :
    Q (statement (.functionDefinition p n ps e))
  assignment (p : Place) {n : Text} {e : Expr} (hn : IsWhole .identifier n) (h : Q (expr e)) :
    Q (statement (.assignment p n e))
  moduleCall (p : Place) {n : Text} {as : List Argument} {s : Statement} (m : Option Modifier)
    (hn : IsWhole .identifier n ∨ n ∈ keywordCallees) (ha : ∀ a ∈ as, Q (argument a))
    (h : Q (statement s)) : Q (statement (.call p n as s m))
  loop (p : Place) {as : List Argument} {s : Statement} (m : Option Modifier)
    (ha : ∀ a ∈ as, Q (argument a)) (h : Q (statement s)) : Q (statement (.loop p as s m))
  conditional (p : Place) {e : Expr} {s : Statement} {b : Option Statement} (he : Q (expr e))
    (h : Q (statement s)) (hb : ∀ t ∈ b, Q (statement t)) : Q (statement (.conditional p e s b))
  modified (p : Place) (m : Modifier) {s : Statement} (h : Q (statement s)) (hs : ¬ s.HasRoom) :
    Q (statement (.modified p m s))

namespace Script
variable {s : Script}

/-- What a script holds, it holds with everything in it. -/
theorem Holds.child {n c : Node} (h : s.Holds n) (hc : c ∈ n.children) : s.Holds c := by
  obtain ⟨t, ht, w⟩ := h
  exact ⟨t, ht, (Node.Within.child hc (.self c)).trans w⟩

namespace WellShaped
variable (ok : s.WellShaped)
include ok

/-- No reference to a file stands in a construct. -/
theorem not_file_of_child {n c : Node} (h : s.Holds n) (hc : c ∈ n.children) :
    ∀ p k t, c ≠ .statement (.file p k t) := by
  rintro p k path rfl
  obtain ⟨t, ht, w⟩ := h
  obtain ⟨rfl, -⟩ := ok.files t ht p k path ((Node.Within.child hc (.self _)).trans w)
  obtain rfl := Node.within_file w
  cases hc

/-- A name in a script of that shape is one token, unless it is the name of a module that is
called. -/
theorem isWhole_of_name {n : Node} (h : s.Holds n) (hm : ¬ n.IsModuleCall) {t : Text}
    (ht : n.name? = some t) : IsWhole .identifier t :=
  (ok.names n h t ht).resolve_right fun call => hm call.1

variable {P : Text → Prop} {Q : Node → Prop} (f : Node.Formers P Q)
include f

/-- What passes to expressions from what stands in them holds of an expression of the script. -/
theorem of_expr (field : ∀ p e n, s.Holds (.expr (.member p e n)) → P n) {e : Expr}
    (h : s.Holds (.expr e)) (ih : ∀ c ∈ Node.ofExpr e, Q c) : Q (.expr e) := by
  cases e with
  | undef p => exact f.undef p
  | boolean p b => exact f.boolean p b
  | number p v => exact f.number p (ok.numbers p v h)
  | text p t => exact f.text p (ok.texts p t h)
  | «variable» p n => exact f.name p (ok.isWhole_of_name h id rfl)
  | member p e n =>
    simp only [Node.ofExpr, List.forall_mem_singleton] at ih
    exact f.member p ih (ok.isWhole_of_name h id rfl) (field p e n h)
  | index p a i =>
    simp only [Node.ofExpr, List.forall_mem_cons] at ih
    exact f.index p ih.1 ih.2.1
  | vector p es => exact f.vector p (List.forall_mem_map.1 ih)
  | range p a s b =>
    simp only [Node.ofExpr, List.forall_mem_cons, List.forall_mem_append, List.forall_mem_map,
      Option.mem_toList] at ih
    exact f.range p ih.1 ih.2.1 ih.2.2.1
  | call p n as => exact f.call p (ok.isWhole_of_name h id rfl) (List.forall_mem_map.1 ih)
  | comprehension p gs as e =>
    simp only [Node.ofExpr, List.forall_mem_append, List.forall_mem_map, List.forall_mem_flatten,
      List.forall_mem_singleton] at ih
    exact f.comprehension p ih.1.1 ih.1.2 ih.2
  | unary p o e =>
    simp only [Node.ofExpr, List.forall_mem_singleton] at ih
    exact f.unary p o ih
  | binary p a o b =>
    simp only [Node.ofExpr, List.forall_mem_cons] at ih
    exact f.binary p o ih.1 ih.2.1
  | ternary p c a b =>
    simp only [Node.ofExpr, List.forall_mem_cons] at ih
    exact f.ternary p ih.1 ih.2.1 ih.2.2.1
  | led p l as e =>
    simp only [Node.ofExpr, List.forall_mem_append, List.forall_mem_map,
      List.forall_mem_singleton] at ih
    exact f.led p l ih.1 ih.2

/-- What passes to statements from what stands in them holds of a statement of the script that is no
reference to a file. -/
theorem of_statement {t : Statement} (h : s.Holds (.statement t))
    (file : ∀ p k path, t ≠ .file p k path) (ih : ∀ c ∈ Node.ofStatement t, Q c) :
    Q (.statement t) := by
  cases t with
  | empty p => exact f.empty p
  | block p ss => exact f.block p (List.forall_mem_map.1 ih)
  | moduleDefinition p n ps t =>
    simp only [Node.ofStatement, List.forall_mem_append, List.forall_mem_map,
      List.forall_mem_singleton] at ih
    exact f.moduleDefinition p (ok.isWhole_of_name h id rfl) ih.1 ih.2
  | functionDefinition p n ps e =>
    simp only [Node.ofStatement, List.forall_mem_append, List.forall_mem_map,
      List.forall_mem_singleton] at ih
    exact f.functionDefinition p (ok.isWhole_of_name h id rfl) ih.1 ih.2
  | assignment p n e =>
    simp only [Node.ofStatement, List.forall_mem_singleton] at ih
    exact f.assignment p (ok.isWhole_of_name h id rfl) ih
  | call p n as t m =>
    simp only [Node.ofStatement, List.forall_mem_append, List.forall_mem_map,
      List.forall_mem_singleton] at ih
    exact f.moduleCall p m ((ok.names _ h n rfl).imp_right And.right) ih.1 ih.2
  | loop p as t m =>
    simp only [Node.ofStatement, List.forall_mem_append, List.forall_mem_map,
      List.forall_mem_singleton] at ih
    exact f.loop p m ih.1 ih.2
  | conditional p e a b =>
    simp only [Node.ofStatement, List.forall_mem_cons, List.forall_mem_map,
      Option.mem_toList] at ih
    exact f.conditional p ih.1 ih.2.1 ih.2.2
  | modified p m t =>
    simp only [Node.ofStatement, List.forall_mem_singleton] at ih
    exact f.modified p m ih (ok.modifiers p m t h)
  | file p k path => exact absurd rfl (file p k path)

/-- What passes to every construct from those in it holds of all constructs of a script, references to
files aside. -/
theorem of_formers (field : ∀ p e n, s.Holds (.expr (.member p e n)) → P n) (n : Node) :
    s.Holds n → (∀ p k t, n ≠ .statement (.file p k t)) → Q n := by
  induction n using Node.induction with
  | step n ih =>
    intro h file
    replace ih : ∀ c ∈ n.children, Q c := fun c hc =>
      ih c hc (h.child hc) (ok.not_file_of_child h hc)
    cases n with
    | expr e => exact ok.of_expr f field h ih
    | argument a =>
      obtain ⟨p, n, e⟩ := a
      simp only [Node.children, List.forall_mem_singleton] at ih
      cases n with
      | none => exact f.positional p ih
      | some n => exact f.named p (ok.isWhole_of_name h id rfl) ih
    | parameter p =>
      obtain ⟨p, n, d⟩ := p
      simp only [Node.children, List.forall_mem_map, Option.mem_toList] at ih
      exact f.parameter p (ok.isWhole_of_name h id rfl) ih
    | statement t =>
      exact ok.of_statement f h (fun p k path he => file p k path (congrArg _ he)) ih

end WellShaped
end Script

/-! ### What lines spell -/

namespace Node

/-- The tokens of its line spell the construct, as one that starts where the source does. -/
def Spelt : Node → Prop
  | expr e      => Spells (.expr .access (e.mapPlaces Place.first)) e.line.tokens
  | argument a  => Spells (.argument (a.mapPlaces Place.first)) a.line.tokens
  | parameter p => SpellsParameter (p.mapPlaces Place.first) p.line.tokens
  | statement s => Says (.statement (s.mapPlaces Place.first)) s.line.tokens

/-- The lines of arguments with commas between them spell the arguments. -/
theorem spells_arguments {as : List Argument} (h : ∀ a ∈ as, (argument a).Spelt) :
    Spells (.arguments (Argument.mapPlacesList Place.first as))
      (commas (Argument.lines as)).tokens := by
  rw [Argument.mapPlacesList_eq_map, Argument.lines_eq_map]
  refine .ofCommas_arguments (Line.commas_tokens ?_)
  rw [List.forall₂_map_left_iff, List.forall₂_map_right_iff]
  exact List.forall₂_same.2 h

/-- The lines of expressions with commas between them spell the items of a vector. -/
theorem spells_items {es : List Expr} (h : ∀ e ∈ es, (expr e).Spelt) :
    Spells (.items (Expr.mapPlacesList Place.first es)) (commas (Expr.lines es)).tokens := by
  rw [Expr.mapPlacesList_eq_map, Expr.lines_eq_map]
  refine .ofCommas_items (Line.commas_tokens ?_)
  rw [List.forall₂_map_left_iff, List.forall₂_map_right_iff]
  exact List.forall₂_same.2 fun e he => Spells.lift (h e he) .expression (by decide)

/-- The lines of parameters with commas between them spell the parameters. -/
theorem spells_parameters {ps : List Parameter} (h : ∀ p ∈ ps, (parameter p).Spelt) :
    Commas SpellsParameter (ps.map (Parameter.mapPlaces Place.first))
      (commas (ps.map Parameter.line)).tokens := by
  refine Line.commas_tokens ?_
  rw [List.forall₂_map_left_iff, List.forall₂_map_right_iff]
  exact List.forall₂_same.2 h

/-- The lines of groups of bindings spell the groups. -/
theorem spells_clauses {gs : List (List Argument)} (h : ∀ g ∈ gs, ∀ a ∈ g, (argument a).Spelt) :
    Spells (.clauses (Argument.mapPlacesGroups Place.first gs))
      (Argument.lineGroups gs).tokens := by
  induction gs with
  | nil => exact .noClauses
  | cons g gs ih =>
    rw [List.forall_mem_cons] at h
    simp only [Argument.mapPlacesGroups, Argument.lineGroups, List.cons_append,
      Line.tokens_token, Line.tokens_append, Line.tokens_blank]
    exact .clause ⟨rfl, rfl⟩ ⟨rfl, rfl⟩ (spells_arguments h.1) ⟨rfl, rfl⟩ (ih h.2)

/-- The lines of statements say the statements of a block. -/
theorem says_items {ss : List Statement} (h : ∀ s ∈ ss, (statement s).Spelt) :
    Says (.statements (Statement.mapPlacesList Place.first ss))
      (Statement.lineItems ss).tokens := by
  induction ss with
  | nil => exact .noStatements
  | cons s ss ih =>
    rw [List.forall_mem_cons] at h
    simp only [Statement.mapPlacesList, Statement.lineItems, List.cons_append,
      Line.tokens_append, Line.tokens_blank]
    exact .nextStatement h.1 (ih h.2)

/-! ### Expressions -/

namespace Spelt
variable {p : Place} {n : Text} {e a b : Expr} {as : List Argument}

/-- What is spelt stands at every level above the primaries. -/
theorem lift (h : (expr e).Spelt) (l : Level) (hl : l ≠ .primary) :
    Spells (.expr l (e.mapPlaces Place.first)) e.line.tokens := Spells.lift h l hl

/-- What is spelt is an expression. -/
theorem expression (h : (expr e).Spelt) :
    Spells (.expr .expression (e.mapPlaces Place.first)) e.line.tokens :=
  h.lift .expression (by decide)

/-- What the tokens of its line spell as an access is spelt. -/
theorem of {ks : List Token} (h : Spells (.expr .access (e.mapPlaces Place.first)) ks)
    (he : e.line.tokens = ks) : (expr e).Spelt := by
  subst he
  exact h

/-- What the tokens of its line spell in parentheses is spelt. -/
theorem parenthesized {ks : List Token}
    (h : Spells (.expr .expression (e.mapPlaces Place.first)) ks)
    (he : e.line.tokens = ⟨.symbol, ['('], 0⟩ :: (ks ++ [⟨.symbol, [')'], 0⟩])) :
    (expr e).Spelt := .of (.base (.parenthesized ⟨rfl, rfl⟩ h ⟨rfl, rfl⟩)) he

/-- The line of an expression starts at the start. -/
theorem place_eq (h : (expr e).Spelt) : SolidScript.place e.line.tokens = some 0 :=
  Line.place_tokens (Spells.expr_ne_nil h)

theorem undef : (expr (.undef p)).Spelt := .base (.literal ⟨rfl, rfl⟩ rfl)

theorem boolean {t : Bool} : (expr (.boolean p t)).Spelt := by
  cases t <;> exact .base (.literal ⟨rfl, rfl⟩ rfl)

/-- A number whose numeral has its value is spelt. -/
theorem number {v : Number.Double} (hv : Number.Numeral.value? v.print = some v) :
    (expr (.number p v)).Spelt :=
  .base (.number (k := ⟨.number, v.print, 0⟩) rfl hv)

theorem text : (expr (.text p n)).Spelt := by
  have spells : Spells _ [⟨.string, '"' :: n ++ ['"'], 0⟩] := .base (.text rfl)
  rwa [show OfTree.inner ('"' :: n ++ ['"']) = n by simp [OfTree.inner]] at spells

theorem variable_ (hn : Token.IsWhole .identifier n) : (expr (.variable p n)).Spelt :=
  .base (.name (isName_of_isWhole hn))

/-- An access to a field is spelt if what is accessed is and the name of the field is one token. -/
theorem member (h : (expr e).Spelt) (hn : Token.IsWhole .identifier n) :
    (expr (.member p e n)).Spelt := by
  have spells := Spells.accessed h
    (.member (p := ⟨.symbol, ['.'], 0⟩) ⟨rfl, rfl⟩ (isName_of_isWhole hn))
  rw [h.place_eq] at spells
  exact .of spells (by simp [Expr.line])

theorem index (ha : (expr a).Spelt) (hb : (expr b).Spelt) : (expr (.index p a b)).Spelt := by
  have spells := Spells.accessed ha (.index (o := ⟨.symbol, ['['], 0⟩) (c := ⟨.symbol, [']'], 0⟩)
    ⟨rfl, rfl⟩ hb.expression ⟨rfl, rfl⟩)
  rw [ha.place_eq] at spells
  exact .of spells (by simp [Expr.line])

theorem vector {es : List Expr} (h : ∀ e ∈ es, (expr e).Spelt) : (expr (.vector p es)).Spelt := by
  have spells := Spells.vector (o := ⟨.symbol, ['['], 0⟩) (c := ⟨.symbol, [']'], 0⟩) ⟨rfl, rfl⟩
    (spells_items h) ⟨rfl, rfl⟩
  exact .of spells.base (by simp [Expr.line])

/-- A range is spelt if its ends and its step are. -/
theorem range {s : Option Expr} (ha : (expr a).Spelt) (hs : ∀ e ∈ s, (expr e).Spelt)
    (hb : (expr b).Spelt) : (expr (.range p a s b)).Spelt := by
  cases s with
  | none =>
    have spells := Spells.range (o := ⟨.symbol, ['['], 0⟩) (m := ⟨.symbol, [':'], 0⟩)
      (c := ⟨.symbol, [']'], 0⟩) ⟨rfl, rfl⟩ ha.expression ⟨rfl, rfl⟩ hb.expression
      ⟨rfl, rfl⟩
    exact .of spells.base (by simp [Expr.line, Expr.lineStep])
  | some e =>
    have colon : (⟨.symbol, [':'], 0⟩ : Token).IsMark .colon := ⟨rfl, rfl⟩
    have spells := Spells.steppedRange (o := ⟨.symbol, ['['], 0⟩) (c := ⟨.symbol, [']'], 0⟩)
      ⟨rfl, rfl⟩ ha.expression colon (hs e rfl).expression colon
      hb.expression ⟨rfl, rfl⟩
    exact .of spells.base (by simp [Expr.line, Expr.lineStep])

/-- A call of a function is spelt if its name is one token and its arguments are spelt. -/
theorem call (hn : Token.IsWhole .identifier n) (h : ∀ a ∈ as, (argument a).Spelt) :
    (expr (.call p n as)).Spelt := by
  have spells := Spells.call (o := ⟨.symbol, ['('], 0⟩) (c := ⟨.symbol, [')'], 0⟩)
    (isName_of_isWhole hn) ⟨rfl, rfl⟩ (spells_arguments h) ⟨rfl, rfl⟩
  exact .of spells.base (by simp [Expr.line])

/-- A comprehension is spelt if its bindings, what it loops over and its body are. -/
theorem comprehension {gs : List (List Argument)} (hg : ∀ g ∈ gs, ∀ a ∈ g, (argument a).Spelt)
    (ha : ∀ a ∈ as, (argument a).Spelt) (he : (expr e).Spelt) :
    (expr (.comprehension p gs as e)).Spelt := by
  have spells := Spells.comprehension (o := ⟨.symbol, ['['], 0⟩) (q := ⟨.symbol, [']'], 0⟩)
    (f := ⟨.keyword, Keyword.forWord.spelling, 0⟩) (p := ⟨.symbol, ['('], 0⟩)
    (c := ⟨.symbol, [')'], 0⟩) ⟨rfl, rfl⟩ (spells_clauses hg) ⟨rfl, rfl⟩ ⟨rfl, rfl⟩
    (spells_arguments ha) ⟨rfl, rfl⟩ he.expression ⟨rfl, rfl⟩
  exact .of spells.base (by simp [Expr.line])

theorem unary {o : UnaryOp} (h : (expr e).Spelt) : (expr (.unary p o e)).Spelt := by
  have spells := Spells.signed (k := ⟨.symbol, o.text, 0⟩) o.accepts (h.lift .unary (by decide))
    (OfTree.signed?_text _ o _)
  have product : Spells (.expr (.tier .product) _) _ := .operand spells
  exact .parenthesized (.unbound (.unconditional product.loosest)) (by simp [Expr.line])

/-- An operation, which is written in parentheses, is spelt if both operands are. -/
theorem binary {o : BinaryOp} (ha : (expr a).Spelt) (hb : (expr b).Spelt) :
    (expr (.binary p a o b)).Spelt := by
  obtain ⟨t, ht⟩ := o.exists_tier
  have spells := Spells.operation (t := t) (ha.lift (.tier t) (by simp)) ht
    (BinaryOp.ofText?_text o) (hb.lift t.next (by cases t <;> decide))
  rw [ha.place_eq] at spells
  exact .parenthesized (.unbound (.unconditional spells.loosest)) (by simp [Expr.line])

/-- A conditional expression, which is written in parentheses, is spelt if its parts are. -/
theorem ternary {c : Expr} (hc : (expr c).Spelt) (ha : (expr a).Spelt) (hb : (expr b).Spelt) :
    (expr (.ternary p c a b)).Spelt := by
  have spells := Spells.ternary (q := ⟨.symbol, ['?'], 0⟩) (c := ⟨.symbol, [':'], 0⟩)
    (hc.lift (.tier .disjunction) (by decide)) ⟨rfl, rfl⟩ ha.expression ⟨rfl, rfl⟩
    hb.expression
  rw [hc.place_eq] at spells
  exact .parenthesized (.unbound spells) (by simp [Expr.line])

/-- An expression with a lead, written in parentheses, is spelt if its arguments and its body
are. -/
theorem led {l : Lead} (ha : ∀ a ∈ as, (argument a).Spelt) (he : (expr e).Spelt) :
    (expr (.led p l as e)).Spelt := by
  by_cases hl : l = .binding
  · subst hl
    have spells := Spells.bound (by simp) (Spells.clause (k := ⟨.keyword, Keyword.letWord.spelling, 0⟩)
      (o := ⟨.symbol, ['('], 0⟩) (c := ⟨.symbol, [')'], 0⟩) ⟨rfl, rfl⟩ ⟨rfl, rfl⟩
      (spells_arguments ha) ⟨rfl, rfl⟩ .noClauses) (he.lift .ternary (by decide))
    rw [List.flatten_singleton] at spells
    exact .parenthesized spells (by simp [Expr.line, Lead.keyword])
  · have spells := Spells.led hl (k := ⟨.keyword, l.keyword.spelling, 0⟩)
      (o := ⟨.symbol, ['('], 0⟩) (c := ⟨.symbol, [')'], 0⟩) ⟨rfl, rfl⟩ ⟨rfl, rfl⟩
      (spells_arguments ha) ⟨rfl, rfl⟩ he.expression
    exact .parenthesized (.unbound spells) (by simp [Expr.line])

/-! ### Arguments and parameters -/

/-- An argument without a name is spelt as its value. -/
theorem positional (h : (expr e).Spelt) : (argument (.mk p none e)).Spelt := by
  have spells := Spells.positional h.expression
  rw [h.place_eq] at spells
  exact spells

/-- An argument with a name is spelt if the name is one token and its value is spelt. -/
theorem named (hn : Token.IsWhole .identifier n) (h : (expr e).Spelt) :
    (argument (.mk p (some n) e)).Spelt :=
  Spells.named (a := ⟨.symbol, ['='], 0⟩) (isName_of_isWhole hn) ⟨rfl, rfl⟩ h.expression

/-- A parameter is spelt if its name is one token and its default, if there is one, is spelt. -/
theorem parameter (hn : Token.IsWhole .identifier n) {d : Option Expr}
    (h : ∀ e ∈ d, (expr e).Spelt) : (Node.parameter ⟨p, n, d⟩).Spelt := by
  cases d with
  | none => exact .plain (isName_of_isWhole hn)
  | some e =>
    exact .withDefault (a := ⟨.symbol, ['='], 0⟩) (isName_of_isWhole hn) ⟨rfl, rfl⟩
      (h e rfl).expression

/-! ### Statements -/

section Statements
variable {s t : Statement} {ps : List Parameter}

/-- What the tokens of its line say is spelt. -/
theorem stated {ks : List Token} (h : Says (.statement (s.mapPlaces Place.first)) ks)
    (he : s.line.tokens = ks) : (statement s).Spelt := by
  subst he
  exact h

theorem empty : (statement (.empty p)).Spelt := Says.empty (k := ⟨.symbol, [';'], 0⟩) ⟨rfl, rfl⟩

/-- A block is spelt if its statements are. -/
theorem block {ss : List Statement} (h : ∀ s ∈ ss, (statement s).Spelt) :
    (statement (.block p ss)).Spelt :=
  .stated (.block (o := ⟨.symbol, ['\x7b'], 0⟩) (c := ⟨.symbol, ['\x7d'], 0⟩) ⟨rfl, rfl⟩
    (says_items h) ⟨rfl, rfl⟩) (by simp [Statement.line])

/-- A definition of a module is spelt if its name is one token and its parameters and body are
spelt. -/
theorem moduleDefinition (hn : Token.IsWhole .identifier n) (hp : ∀ p ∈ ps, (Node.parameter p).Spelt)
    (h : (statement s).Spelt) : (statement (.moduleDefinition p n ps s)).Spelt :=
  .stated (.moduleDefinition (m := ⟨.keyword, Keyword.moduleWord.spelling, 0⟩)
    (o := ⟨.symbol, ['('], 0⟩) (c := ⟨.symbol, [')'], 0⟩) ⟨rfl, rfl⟩ (isName_of_isWhole hn)
    ⟨rfl, rfl⟩ (spells_parameters hp) ⟨rfl, rfl⟩ h) (by simp [Statement.line])

/-- A definition of a function is spelt if its name is one token and its parameters and value are
spelt. -/
theorem functionDefinition (hn : Token.IsWhole .identifier n)
    (hp : ∀ p ∈ ps, (Node.parameter p).Spelt) (h : (expr e).Spelt) :
    (statement (.functionDefinition p n ps e)).Spelt :=
  .stated (.functionDefinition (f := ⟨.keyword, Keyword.functionWord.spelling, 0⟩)
    (o := ⟨.symbol, ['('], 0⟩) (c := ⟨.symbol, [')'], 0⟩) (a := ⟨.symbol, ['='], 0⟩)
    (z := ⟨.symbol, [';'], 0⟩) ⟨rfl, rfl⟩ (isName_of_isWhole hn) ⟨rfl, rfl⟩
    (spells_parameters hp) ⟨rfl, rfl⟩ ⟨rfl, rfl⟩ h.expression ⟨rfl, rfl⟩)
    (by simp [Statement.line])

/-- An assignment is spelt if its name is one token and its value is spelt. -/
theorem assignment (hn : Token.IsWhole .identifier n) (h : (expr e).Spelt) :
    (statement (.assignment p n e)).Spelt :=
  .stated (.assignment (a := ⟨.symbol, ['='], 0⟩) (z := ⟨.symbol, [';'], 0⟩)
    (isName_of_isWhole hn) ⟨rfl, rfl⟩ h.expression ⟨rfl, rfl⟩) (by simp [Statement.line])

/-- A modifier before what it goes into. -/
theorem withModifier {ks : List Token} {u : Statement} {m : Modifier} (h : Says (.statement u) ks)
    (hs : OfTree.modify (some 0) m u = s.mapPlaces Place.first)
    (he : s.line.tokens = ⟨.symbol, m.text, 0⟩ :: ks) : (statement s).Spelt := by
  have said := Says.modified (k := ⟨.symbol, m.text, 0⟩) m.accepts m.ofText?_text h
  rw [hs] at said
  exact .stated said he

/-- A call of a module is spelt, with its modifier before it. -/
theorem moduleCall (hn : (⟨reclassify .identifier n, n, 0⟩ : Token).IsCallee)
    (ha : ∀ a ∈ as, (argument a).Spelt) (h : (statement s).Spelt) :
    ∀ m : Option Modifier, (statement (.call p n as s m)).Spelt := by
  have said := Says.call (o := ⟨.symbol, ['('], 0⟩) (c := ⟨.symbol, [')'], 0⟩) hn ⟨rfl, rfl⟩
    (spells_arguments ha) ⟨rfl, rfl⟩ h
  rintro (_ | m)
  · exact .stated said (by simp [Statement.line, Modifier.line])
  · exact .withModifier said rfl (by simp [Statement.line, Modifier.line])

/-- A loop is spelt, with its modifier before it. -/
theorem loop (ha : ∀ a ∈ as, (argument a).Spelt) (h : (statement s).Spelt) :
    ∀ m : Option Modifier, (statement (.loop p as s m)).Spelt := by
  have said := Says.loop (f := ⟨.keyword, Keyword.forWord.spelling, 0⟩) (o := ⟨.symbol, ['('], 0⟩)
    (c := ⟨.symbol, [')'], 0⟩) ⟨rfl, rfl⟩ ⟨rfl, rfl⟩ (spells_arguments ha) ⟨rfl, rfl⟩ h
  rintro (_ | m)
  · exact .stated said (by simp [Statement.line, Modifier.line])
  · exact .withModifier said rfl (by simp [Statement.line, Modifier.line])

/-- A conditional is spelt if its condition and its branches are. -/
theorem conditional (he : (expr e).Spelt) (h : (statement s).Spelt) {b : Option Statement}
    (hb : ∀ t ∈ b, (statement t).Spelt) : (statement (.conditional p e s b)).Spelt := by
  cases b with
  | none =>
    exact .stated (.conditional (i := ⟨.keyword, Keyword.ifWord.spelling, 0⟩)
      (o := ⟨.symbol, ['('], 0⟩) (c := ⟨.symbol, [')'], 0⟩) ⟨rfl, rfl⟩ ⟨rfl, rfl⟩
      he.expression ⟨rfl, rfl⟩ h) (by simp [Statement.line, Statement.lineElse])
  | some t =>
    exact .stated (.alternative (i := ⟨.keyword, Keyword.ifWord.spelling, 0⟩)
      (o := ⟨.symbol, ['('], 0⟩) (c := ⟨.symbol, [')'], 0⟩)
      (l := ⟨.keyword, Keyword.elseWord.spelling, 0⟩) ⟨rfl, rfl⟩ ⟨rfl, rfl⟩ he.expression
      ⟨rfl, rfl⟩ h ⟨rfl, rfl⟩ (hb t rfl)) (by simp [Statement.line, Statement.lineElse])

/-- A modifier is spelt before a statement that has no room for it. -/
theorem modified {m : Modifier} (h : (statement s).Spelt) (hs : ¬ s.HasRoom) :
    (statement (.modified p m s)).Spelt := by
  refine .withModifier (m := m) h ?_ (by simp [Statement.line])
  rw [← Statement.modify_of_not_hasRoom hs, OfTree.mapPlaces_modify]
  rfl

end Statements

end Spelt

end Node

open Node.Spelt in
/-- What the tokens of lines spell passes to every construct. -/
theorem Node.Spelt.formers : Node.Formers (fun _ => True) Node.Spelt where
  undef _ := undef
  boolean _ _ := boolean
  number _ _ h := number h.printedAs.value
  text _ _ _ := text
  name _ _ hn := variable_ hn
  member _ _ _ h hn _ := member h hn
  index _ _ _ ha hi := index ha hi
  vector _ _ h := vector h
  range _ _ _ _ ha hs hb := range ha hs hb
  call _ _ _ hn h := call hn h
  comprehension _ _ _ _ hg ha he := comprehension hg ha he
  unary _ _ _ h := unary h
  binary _ _ _ _ ha hb := binary ha hb
  ternary _ _ _ _ hc ha hb := ternary hc ha hb
  led _ _ _ _ ha he := led ha he
  positional _ _ h := positional h
  named _ _ _ hn h := named hn h
  parameter _ _ _ hn h := parameter hn h
  empty _ := empty
  block _ _ h := block h
  moduleDefinition _ _ _ _ hn hp h := moduleDefinition hn hp h
  functionDefinition _ _ _ _ hn hp h := functionDefinition hn hp h
  assignment _ _ _ hn h := assignment hn h
  moduleCall _ _ _ _ m hn ha h := moduleCall
    (hn.elim (fun whole => .inl (isName_of_isWhole whole)) isCallee_of_mem) ha h m
  loop _ _ _ m ha h := loop ha h m
  conditional _ _ _ _ he h hb := conditional he h hb
  modified _ _ _ h hs := modified h hs

end SolidScript
