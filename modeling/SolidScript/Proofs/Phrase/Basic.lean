import SolidScript.Grammar.Derivation
import SolidScript.Script.OfTree

/-!
# Phrase — the tokens of a construct

Which tokens spell which construct, whatever stands between them and however they are found.  An
expression stands at a level: the looser its last operation, the fewer levels it may stand at.
Operators of one tier group to the left, and so do accesses; everything that a chain of them
builds starts where the chain starts.

* `Spells`: the tokens of an expression and of the parts of one.
* `Says`: the tokens of a statement and of the parts of one.  An `else` may belong to any `if`
  before it here.
-/

namespace SolidScript

/-- Where the first of the tokens starts. -/
def place (ks : List Token) : Place := ks.head?.map Token.start

@[simp] theorem place_nil : place [] = none := rfl

@[simp] theorem place_cons (k : Token) (ks : List Token) : place (k :: ks) = some k.start := rfl

@[simp] theorem place_append (ks ls : List Token) :
    place (ks ++ ls) = (place ks).or (place ls) := by
  cases ks <;> simp [place]

/-! ### Levels -/

/-- The tiers of operators between two operands, from the loosest. -/
inductive Tier where
  | disjunction | comparison | sum | product
deriving DecidableEq, Repr

/-- The levels that an expression may stand at, from the loosest. -/
inductive Level where
  | expression | ternary | tier (t : Tier) | unary | access | primary
deriving DecidableEq, Repr

namespace Tier

/-- The level of the operands. -/
def next : Tier → Level
  | disjunction => .tier comparison
  | comparison  => .tier sum
  | sum         => .tier product
  | product     => .unary

/-- The operators. -/
def terminal : Tier → Terminal
  | disjunction => .logical
  | comparison  => .comparison
  | sum         => .additive
  | product     => .multiplicative

/-- The rule of the tier. -/
def rule : Tier → Rule
  | disjunction => .disjunction
  | comparison  => .comparison
  | sum         => .sum
  | product     => .product

end Tier

/-- The rule of the level. -/
def Level.rule : Level → Rule
  | expression => .expression
  | ternary    => .ternaryLevel
  | tier t     => t.rule
  | unary      => .unaryLevel
  | access     => .access
  | primary    => .primary

/-! ### Parts of expressions -/

/-- What may follow a primary expression: a field, or an index in brackets. -/
inductive Suffix where
  | member (name : Text)
  | index (e : Expr)

/-- The expression with an access after it. -/
def Suffix.onto (p : Place) (base : Expr) : Suffix → Expr
  | member n => .member p base n
  | index e  => .index p base e

/-- The keyword of a lead. -/
def Lead.keyword : Lead → Keyword
  | binding   => .letWord
  | echo      => .echoWord
  | assertion => .assertWord

/-- The expression that a keyword is. -/
def Expr.ofKeyword? (p : Place) : Keyword → Option Expr
  | .undefWord => some (.undef p)
  | .trueWord  => some (.boolean p true)
  | .falseWord => some (.boolean p false)
  | _          => none

/-- An expression or a part of one. -/
inductive Phrase where
  | expr (l : Level) (e : Expr)
  | suffix (s : Suffix)
  | argument (a : Argument)
  | arguments (as : List Argument)
  | items (es : List Expr)
  | clauses (gs : List (List Argument))

/-- The tokens spell the expression or the part of one. -/
inductive Spells : Phrase → List Token → Prop where
  -- leads and conditionals
  | bound {gs : List (List Argument)} {e : Expr} {ks ls : List Token} (hn : gs ≠ [])
      (h : Spells (.clauses gs) ks) (he : Spells (.expr .ternary e) ls) :
      Spells (.expr .expression (.led (place ks) .binding gs.flatten e)) (ks ++ ls)
  | unbound {e : Expr} {ks : List Token} (h : Spells (.expr .ternary e) ks) :
      Spells (.expr .expression e) ks
  | led {l : Lead} (hl : l ≠ .binding) {k o c : Token} {as : List Argument} {e : Expr}
      {ks ls : List Token} (hk : k.IsWord l.keyword) (ho : o.IsMark .openParen)
      (h : Spells (.arguments as) ks) (hc : c.IsMark .closeParen)
      (he : Spells (.expr .expression e) ls) :
      Spells (.expr .ternary (.led k.start l as e)) (k :: o :: (ks ++ c :: ls))
  | ternary {e a b : Expr} {q c : Token} {ks ls ms : List Token}
      (h : Spells (.expr (.tier .disjunction) e) ks) (hq : q.IsMark .question)
      (ha : Spells (.expr .expression a) ls) (hc : c.IsMark .colon)
      (hb : Spells (.expr .expression b) ms) :
      Spells (.expr .ternary (.ternary (place ks) e a b)) (ks ++ q :: (ls ++ c :: ms))
  | unconditional {e : Expr} {ks : List Token} (h : Spells (.expr (.tier .disjunction) e) ks) :
      Spells (.expr .ternary e) ks
  -- operators
  | operand {t : Tier} {e : Expr} {ks : List Token} (h : Spells (.expr t.next e) ks) :
      Spells (.expr (.tier t) e) ks
  | operation {t : Tier} {a b : Expr} {op : BinaryOp} {o : Token} {ks ls : List Token}
      (ha : Spells (.expr (.tier t) a) ks) (ho : t.terminal.Accepts o)
      (hop : BinaryOp.ofText? o.text = some op) (hb : Spells (.expr t.next b) ls) :
      Spells (.expr (.tier t) (.binary (place ks) a op b)) (ks ++ o :: ls)
  | signed {e e' : Expr} {k : Token} {ks : List Token} (hk : Terminal.unary.Accepts k)
      (h : Spells (.expr .unary e) ks) (he : OfTree.signed? k.start k.text e = some e') :
      Spells (.expr .unary e') (k :: ks)
  | unsigned {e : Expr} {ks : List Token} (h : Spells (.expr .access e) ks) :
      Spells (.expr .unary e) ks
  -- accesses
  | base {e : Expr} {ks : List Token} (h : Spells (.expr .primary e) ks) :
      Spells (.expr .access e) ks
  | accessed {e : Expr} {s : Suffix} {ks ls : List Token} (h : Spells (.expr .access e) ks)
      (hs : Spells (.suffix s) ls) : Spells (.expr .access (s.onto (place ks) e)) (ks ++ ls)
  | member {p n : Token} (hp : Terminal.period.Accepts p) (hn : n.IsName) :
      Spells (.suffix (.member n.text)) [p, n]
  | index {o c : Token} {e : Expr} {ks : List Token} (ho : o.IsMark .openBracket)
      (h : Spells (.expr .expression e) ks) (hc : c.IsMark .closeBracket) :
      Spells (.suffix (.index e)) (o :: (ks ++ [c]))
  -- primaries
  | parenthesized {o c : Token} {e : Expr} {ks : List Token} (ho : o.IsMark .openParen)
      (h : Spells (.expr .expression e) ks) (hc : c.IsMark .closeParen) :
      Spells (.expr .primary e) (o :: (ks ++ [c]))
  | literal {k : Token} {w : Keyword} {e : Expr} (hk : k.IsWord w)
      (he : Expr.ofKeyword? k.start w = some e) : Spells (.expr .primary e) [k]
  | text {k : Token} (hk : Terminal.string.Accepts k) :
      Spells (.expr .primary (.text k.start (OfTree.inner k.text))) [k]
  | number {k : Token} {v : Number.Double} (hk : Terminal.number.Accepts k)
      (hv : Number.Numeral.value? k.text = some v) :
      Spells (.expr .primary (.number k.start v)) [k]
  | name {k : Token} (hk : k.IsName) :
      Spells (.expr .primary (.variable k.start k.text)) [k]
  | call {n o c : Token} {as : List Argument} {ks : List Token} (hn : n.IsName)
      (ho : o.IsMark .openParen) (h : Spells (.arguments as) ks) (hc : c.IsMark .closeParen) :
      Spells (.expr .primary (.call n.start n.text as)) (n :: o :: (ks ++ [c]))
  | comprehension {o f p c q : Token} {gs : List (List Argument)} {as : List Argument} {e : Expr}
      {ks ls ms : List Token} (ho : o.IsMark .openBracket) (h : Spells (.clauses gs) ks)
      (hf : f.IsWord .forWord) (hp : p.IsMark .openParen) (ha : Spells (.arguments as) ls)
      (hc : c.IsMark .closeParen) (he : Spells (.expr .expression e) ms)
      (hq : q.IsMark .closeBracket) :
      Spells (.expr .primary (.comprehension o.start gs as e))
        (o :: (ks ++ f :: p :: (ls ++ c :: (ms ++ [q]))))
  | range {o m c : Token} {a b : Expr} {ks ls : List Token} (ho : o.IsMark .openBracket)
      (ha : Spells (.expr .expression a) ks) (hm : m.IsMark .colon)
      (hb : Spells (.expr .expression b) ls) (hc : c.IsMark .closeBracket) :
      Spells (.expr .primary (.range o.start a none b)) (o :: (ks ++ m :: (ls ++ [c])))
  | steppedRange {o m m' c : Token} {a s b : Expr} {ks ls ms : List Token}
      (ho : o.IsMark .openBracket) (ha : Spells (.expr .expression a) ks) (hm : m.IsMark .colon)
      (hs : Spells (.expr .expression s) ls) (hm' : m'.IsMark .colon)
      (hb : Spells (.expr .expression b) ms) (hc : c.IsMark .closeBracket) :
      Spells (.expr .primary (.range o.start a (some s) b))
        (o :: (ks ++ m :: (ls ++ m' :: (ms ++ [c]))))
  | vector {o c : Token} {es : List Expr} {ks : List Token} (ho : o.IsMark .openBracket)
      (h : Spells (.items es) ks) (hc : c.IsMark .closeBracket) :
      Spells (.expr .primary (.vector o.start es)) (o :: (ks ++ [c]))
  -- arguments
  | positional {e : Expr} {ks : List Token} (h : Spells (.expr .expression e) ks) :
      Spells (.argument (.mk (place ks) none e)) ks
  | named {n a : Token} {e : Expr} {ks : List Token} (hn : n.IsName) (ha : a.IsMark .assign)
      (h : Spells (.expr .expression e) ks) :
      Spells (.argument (.mk n.start (some n.text) e)) (n :: a :: ks)
  -- lists
  | noArguments : Spells (.arguments []) []
  | lastArgument {a : Argument} {ks : List Token} (h : Spells (.argument a) ks) :
      Spells (.arguments [a]) ks
  | closedArgument {a : Argument} {c : Token} {ks : List Token} (h : Spells (.argument a) ks)
      (hc : c.IsMark .comma) : Spells (.arguments [a]) (ks ++ [c])
  | nextArgument {a b : Argument} {as : List Argument} {c : Token} {ks ls : List Token}
      (h : Spells (.argument a) ks) (hc : c.IsMark .comma) (hs : Spells (.arguments (b :: as)) ls) :
      Spells (.arguments (a :: b :: as)) (ks ++ c :: ls)
  | noItems : Spells (.items []) []
  | lastItem {e : Expr} {ks : List Token} (h : Spells (.expr .expression e) ks) :
      Spells (.items [e]) ks
  | closedItem {e : Expr} {c : Token} {ks : List Token} (h : Spells (.expr .expression e) ks)
      (hc : c.IsMark .comma) : Spells (.items [e]) (ks ++ [c])
  | nextItem {a b : Expr} {es : List Expr} {c : Token} {ks ls : List Token}
      (h : Spells (.expr .expression a) ks) (hc : c.IsMark .comma)
      (hs : Spells (.items (b :: es)) ls) : Spells (.items (a :: b :: es)) (ks ++ c :: ls)
  | noClauses : Spells (.clauses []) []
  | clause {k o c : Token} {as : List Argument} {gs : List (List Argument)} {ks ls : List Token}
      (hk : k.IsWord .letWord) (ho : o.IsMark .openParen) (h : Spells (.arguments as) ks)
      (hc : c.IsMark .closeParen) (hs : Spells (.clauses gs) ls) :
      Spells (.clauses (as :: gs)) (k :: o :: (ks ++ c :: ls))

/-! ### Lists with commas -/

/-- Things with commas between neighbours, and perhaps one after the last. -/
inductive Commas {α : Type} (P : α → List Token → Prop) : List α → List Token → Prop where
  | none : Commas P [] []
  | last {a : α} {ks : List Token} (h : P a ks) : Commas P [a] ks
  | closed {a : α} {c : Token} {ks : List Token} (h : P a ks) (hc : c.IsMark .comma) :
      Commas P [a] (ks ++ [c])
  | next {a b : α} {as : List α} {c : Token} {ks ls : List Token} (h : P a ks)
      (hc : c.IsMark .comma) (hs : Commas P (b :: as) ls) : Commas P (a :: b :: as) (ks ++ c :: ls)

theorem Spells.ofCommas_arguments {as : List Argument} {ks : List Token}
    (c : Commas (fun a => Spells (.argument a)) as ks) : Spells (.arguments as) ks := by
  induction c with
  | none => exact .noArguments
  | last h => exact .lastArgument h
  | closed h hc => exact .closedArgument h hc
  | next h hc _ ih => exact .nextArgument h hc ih

theorem Spells.ofCommas_items {es : List Expr} {ks : List Token}
    (c : Commas (fun e => Spells (.expr .expression e)) es ks) : Spells (.items es) ks := by
  induction c with
  | none => exact .noItems
  | last h => exact .lastItem h
  | closed h hc => exact .closedItem h hc
  | next h hc _ ih => exact .nextItem h hc ih

/-! ### Statements -/

/-- The tokens spell the parameter. -/
inductive SpellsParameter : Parameter → List Token → Prop where
  | plain {n : Token} (hn : n.IsName) : SpellsParameter ⟨n.start, n.text, none⟩ [n]
  | withDefault {n a : Token} {e : Expr} {ks : List Token} (hn : n.IsName)
      (ha : a.IsMark .assign) (h : Spells (.expr .expression e) ks) :
      SpellsParameter ⟨n.start, n.text, some e⟩ (n :: a :: ks)

/-- The token is the name of a module that is called: a name, or one of three keywords. -/
def Token.IsCallee (k : Token) : Prop :=
  k.IsName ∨ k.IsWord .echoWord ∨ k.IsWord .letWord ∨ k.IsWord .assertWord

/-- A statement, the statements of a block, or those of a script. -/
inductive Passage where
  | statement (s : Statement)
  | statements (ss : List Statement)
  | script (ss : List Statement)

/-- The tokens spell the statement or the statements. -/
inductive Says : Passage → List Token → Prop where
  | empty {k : Token} (hk : k.IsMark .semicolon) : Says (.statement (.empty k.start)) [k]
  | block {o c : Token} {ss : List Statement} {ks : List Token} (ho : o.IsMark .openBrace)
      (h : Says (.statements ss) ks) (hc : c.IsMark .closeBrace) :
      Says (.statement (.block o.start ss)) (o :: (ks ++ [c]))
  | moduleDefinition {m n o c : Token} {ps : List Parameter} {s : Statement} {ks ls : List Token}
      (hm : m.IsWord .moduleWord) (hn : n.IsName) (ho : o.IsMark .openParen)
      (hp : Commas SpellsParameter ps ks) (hc : c.IsMark .closeParen)
      (h : Says (.statement s) ls) :
      Says (.statement (.moduleDefinition m.start n.text ps s)) (m :: n :: o :: (ks ++ c :: ls))
  | functionDefinition {f n o c a z : Token} {ps : List Parameter} {e : Expr} {ks ls : List Token}
      (hf : f.IsWord .functionWord) (hn : n.IsName) (ho : o.IsMark .openParen)
      (hp : Commas SpellsParameter ps ks) (hc : c.IsMark .closeParen) (ha : a.IsMark .assign)
      (h : Spells (.expr .expression e) ls) (hz : z.IsMark .semicolon) :
      Says (.statement (.functionDefinition f.start n.text ps e))
        (f :: n :: o :: (ks ++ c :: a :: (ls ++ [z])))
  | assignment {n a z : Token} {e : Expr} {ks : List Token} (hn : n.IsName)
      (ha : a.IsMark .assign) (h : Spells (.expr .expression e) ks) (hz : z.IsMark .semicolon) :
      Says (.statement (.assignment n.start n.text e)) (n :: a :: (ks ++ [z]))
  | conditional {i o c : Token} {e : Expr} {a : Statement} {ks ls : List Token}
      (hi : i.IsWord .ifWord) (ho : o.IsMark .openParen) (h : Spells (.expr .expression e) ks)
      (hc : c.IsMark .closeParen) (ha : Says (.statement a) ls) :
      Says (.statement (.conditional i.start e a none)) (i :: o :: (ks ++ c :: ls))
  | alternative {i o c l : Token} {e : Expr} {a b : Statement} {ks ls ms : List Token}
      (hi : i.IsWord .ifWord) (ho : o.IsMark .openParen) (h : Spells (.expr .expression e) ks)
      (hc : c.IsMark .closeParen) (ha : Says (.statement a) ls) (hl : l.IsWord .elseWord)
      (hb : Says (.statement b) ms) :
      Says (.statement (.conditional i.start e a (some b)))
        (i :: o :: (ks ++ c :: (ls ++ l :: ms)))
  | modified {k : Token} {m : Modifier} {s : Statement} {ks : List Token}
      (hk : Terminal.modifier.Accepts k) (hm : Modifier.ofText? k.text = some m)
      (h : Says (.statement s) ks) :
      Says (.statement (OfTree.modify k.start m s)) (k :: ks)
  | loop {f o c : Token} {as : List Argument} {s : Statement} {ks ls : List Token}
      (hf : f.IsWord .forWord) (ho : o.IsMark .openParen) (ha : Spells (.arguments as) ks)
      (hc : c.IsMark .closeParen) (h : Says (.statement s) ls) :
      Says (.statement (.loop f.start as s none)) (f :: o :: (ks ++ c :: ls))
  | call {n o c : Token} {as : List Argument} {s : Statement} {ks ls : List Token}
      (hn : n.IsCallee) (ho : o.IsMark .openParen) (ha : Spells (.arguments as) ks)
      (hc : c.IsMark .closeParen) (h : Says (.statement s) ls) :
      Says (.statement (.call n.start n.text as s none)) (n :: o :: (ks ++ c :: ls))
  | noStatements : Says (.statements []) []
  | nextStatement {s : Statement} {ss : List Statement} {ks ls : List Token}
      (h : Says (.statement s) ks) (hs : Says (.statements ss) ls) :
      Says (.statements (s :: ss)) (ks ++ ls)
  | emptyScript : Says (.script []) []
  | ordinary {s : Statement} {ss : List Statement} {ks ls : List Token}
      (h : Says (.statement s) ks) (hs : Says (.script ss) ls) :
      Says (.script (s :: ss)) (ks ++ ls)
  | useFile {k : Token} {ss : List Statement} {ks : List Token} (hk : Terminal.useFile.Accepts k)
      (hs : Says (.script ss) ks) :
      Says (.script (.file k.start .use (OfTree.path k.text) :: ss)) (k :: ks)
  | includeFile {k : Token} {ss : List Statement} {ks : List Token}
      (hk : Terminal.includeFile.Accepts k) (hs : Says (.script ss) ks) :
      Says (.script (.file k.start .inclusion (OfTree.path k.text) :: ss)) (k :: ks)

end SolidScript
