import SolidScript.Proofs.Phrase.Rendered

/-!
# Phrase — rendered constructs stay as they are

The line of a construct lies before whatever closes it: no token in it runs on into the next one
(`Node.Settled.formers`).  Names, numerals and texts are followed by brackets, commas, blanks and the
like, symbols that could be a part of longer ones by blanks, and nothing that is rendered starts with
an equals sign, which an exclamation mark or another equals sign would take in.
-/

namespace SolidScript
open Lexeme (Begins closers)
open Line (commas mark name word)
open Text (isDigit)
open Token (IsWhole reclassify)

namespace Line

/-- Something that ends names, numerals and texts comes first, or nothing. -/
def closes : Text → Bool
  | []     => true
  | c :: _ => closers.contains c

/-- No equals sign comes first. -/
def unequal (t : Text) : Bool := t.head? != some '='

/-- The symbols that no symbol of two characters and no comment starts with. -/
def quiet : List Char :=
  [';', '\x7b', '\x7d', '(', ')', '[', ']', ',', '?', ':', '*', '#', '%', '-', '+']

/-- What comes first in such a text is a closer. -/
theorem mem_closers {r : Text} (h : closes r = true) : ∀ c ∈ r.head?, c ∈ closers := by
  cases r with
  | nil => simp
  | cons c r =>
    rintro _ ⟨⟩
    simpa [closes] using h

variable {P : Text → Prop} {l m : Line} {r : Text}

/-! ### Symbols -/

/-- A blank before what lies lies. -/
theorem Lies.blank (h : Lies P l r) : Lies P (none :: l) r := h

/-- A mark that nothing takes in lies before what lies. -/
theorem Lies.mark {c : Char} (hc : quiet.contains c = true) (h : Lies P l r) :
    Lies P (mark c :: l) r := by
  have apart : ∀ c ∈ quiet, c ∈ Lexeme.singles ∧ c ∉ ['=', '<', '>', '!'] ∧ c ≠ '.' ∧ c ≠ '/' :=
    List.all_iff_forall_prop.1 (by decide +kernel)
  obtain ⟨single, pair, point, stroke⟩ := apart c (by simpa using hc)
  refine (lies_token ⟨?_, fun he => ?_⟩).2 h
  · exact Lexeme.begins_single single (fun h => absurd h pair) fun h => absurd h point
  · exact absurd (List.cons.inj he).1 stroke

/-- A symbol that an equals sign would be taken into. -/
theorem Lies.loose {c : Char} (hc : c = '=' ∨ c = '!') (hr : unequal (text l ++ r) = true)
    (h : Lies P l r) : Lies P (Line.mark c :: l) r := by
  have apart : c ∈ Lexeme.singles ∧ c ≠ '.' ∧ c ≠ '/' := by rcases hc with rfl | rfl <;> decide
  obtain ⟨single, point, stroke⟩ := apart
  refine (lies_token ⟨?_, fun he => ?_⟩).2 h
  · exact Lexeme.begins_single single (fun _ => by simpa [unequal] using hr)
      fun h => absurd h point
  · exact absurd (List.cons.inj he).1 stroke

/-- A sign lies before what starts with no equals sign. -/
theorem Lies.unary (o : UnaryOp) (hr : unequal (text l ++ r) = true) (h : Lies P l r) :
    Lies P (some (.symbol, o.text) :: l) r := by
  cases o with
  | negative => exact .mark rfl h
  | not => exact .loose (.inr rfl) hr h

/-- A modifier lies before what starts with no equals sign. -/
theorem Lies.modifier (m : Modifier) (hr : unequal (text l ++ r) = true) (h : Lies P l r) :
    Lies P (some (.symbol, m.text) :: l) r := by
  cases m with
  | showOnly => exact .loose (.inr rfl) hr h
  | disable | highlight | transparent => exact .mark rfl h

/-- An operator before a blank. -/
theorem Lies.binary (o : BinaryOp) (h : Lies P l r) :
    Lies P (some (.symbol, o.text) :: none :: l) r := by
  refine (lies_token ⟨?_, fun _ => by simp⟩).2 h
  have single {c : Char} (hc : c ∈ Lexeme.singles) (x : Text) : Begins .symbol [c] (' ' :: x) :=
    Lexeme.begins_single hc (by simp) fun _ => by simp [Reader.stops, isDigit]
  rcases o with c | o
  · cases c <;> exact Lexeme.begins_pair (by decide) _
  · cases o <;> first | exact single (by decide) _ | exact Lexeme.begins_pair (by decide) _

/-! ### Words -/

/-- A name, a numeral, a text or a keyword that is one token by itself stands before what closes
it. -/
theorem Stands.of_begins {kind : TokenKind} {u : Text} (h : Begins kind u [])
    (hk : kind ∈ [TokenKind.number, .identifier, .string, .keyword])
    (hu : ∃ d ∈ u, isDigit d = false) (hr : closes r = true) : Stands kind u r := by
  constructor
  · cases r with
    | nil => exact h
    | cons c r => exact h.closed hk (mem_closers hr c rfl) (fun _ => hu) r
  · rintro rfl
    rw [h.symbol rfl (by decide)] at hk
    simp at hk

/-- Only a symbol starts with an equals sign. -/
theorem unequal_of_begins {kind : TokenKind} {u : Text} (h : Begins kind u [])
    (hk : kind ≠ .symbol) (x : Text) : unequal (u ++ x) = true := by
  obtain ⟨c, w, rfl, -⟩ := h.head
  have other : c ≠ '=' := by
    rintro rfl
    exact hk (h.symbol rfl (by decide))
  simpa [unequal] using other

/-- No name that is rendered starts with an equals sign. -/
theorem unequal_name {n : Text} (hn : IsWhole .identifier n ∨ n ∈ Node.keywordCallees) (x : Text) :
    unequal (n ++ x) = true := by
  rcases hn with hn | hn
  · exact unequal_of_begins hn.begins (by simp) x
  · have keywords : ∀ n ∈ Node.keywordCallees, unequal n = true ∧ n ≠ [] := by decide
    obtain ⟨head, ne⟩ := keywords n hn
    obtain ⟨c, n, rfl⟩ := List.exists_cons_of_ne_nil ne
    exact head

/-- A keyword by itself is one token. -/
theorem begins_keyword (w : Keyword) : Begins .keyword w.spelling [] :=
  Grammar.begins_sample (t := .keyword w) rfl


/-- Names, texts and keywords are no digits alone. -/
theorem not_digits_of_begins {kind : TokenKind} {u : Text} (h : Begins kind u [])
    (hk : kind = .identifier ∨ kind = .string ∨ kind = .keyword) :
    ∃ d ∈ u, isDigit d = false := by
  cases h with
  | plain front => exact Lexeme.exists_not_isDigit front (by rcases hk with rfl | rfl | rfl <;> simp)
  | useFile _ he | includeFile _ he => simp [he] at hk

/-- A keyword lies before what closes it. -/
theorem Lies.word {w : Keyword} (hr : closes (text l ++ r) = true) (h : Lies P l r) :
    Lies P (word w :: l) r := by
  have letters := not_digits_of_begins (begins_keyword w) (.inr (.inr rfl))
  exact (lies_token (.of_begins (begins_keyword w) (by simp) letters hr)).2 h

/-- A name lies before what closes it. -/
theorem Lies.name {n : Text} (hn : IsWhole .identifier n ∨ n ∈ Node.keywordCallees)
    (hr : closes (text l ++ r) = true) (h : Lies P l r) : Lies P (name n :: l) r := by
  rcases hn with hn | hn
  · have stands := Stands.of_begins hn.begins (by simp)
      (not_digits_of_begins hn.begins (.inl rfl)) hr
    rw [← reclassify_of_isWhole hn] at stands
    exact (lies_token stands).2 h
  · have keyword := (by decide : ∀ n ∈ Node.keywordCallees, Keyword.isKeyword n = true) n hn
    obtain ⟨w, rfl⟩ := Keyword.isKeyword_iff.1 keyword
    rw [Line.name, reclassify, if_pos ⟨rfl, keyword⟩]
    exact .word hr h

/-- A point before a name. -/
theorem Lies.member {n : Text} (hn : IsWhole .identifier n) (field : P n)
    (hr : closes r = true) : Lies P [Line.mark '.', Line.name n] r := by
  refine ⟨?_, Lies.name (.inl hn) hr trivial⟩
  obtain ⟨c, w, rfl, -⟩ := hn.begins.head
  by_cases digit : isDigit c = true
  · refine .inr ⟨rfl, c :: w, [], ?_, field, hn.begins, ⟨c, rfl, digit⟩, mem_closers hr⟩
    rw [Line.name, reclassify_of_isWhole hn]
  · refine .inl ⟨Lexeme.begins_single (by decide) (fun h => absurd h (by decide)) fun _ => ?_,
      fun h => absurd h (by decide)⟩
    simpa [Reader.stops] using digit

/-! ### Lists -/

/-- Things that lie before whatever closes them lie with commas between them. -/
theorem Lies.commas {ls : List Line} (h : ∀ l ∈ ls, ∀ r, closes r = true → Lies P l r)
    (hr : closes r = true) : Lies P (commas ls) r := by
  induction ls using Line.commas.induct with
  | case1 => trivial
  | case2 l => exact h l List.mem_cons_self r hr
  | case3 l m ls ih =>
    rw [List.forall_mem_cons] at h
    exact .append (h.1 _ rfl) (.mark rfl (ih h.2))

end Line

/-! ### Constructs -/

namespace Node
open Line (Lies closes unequal)

/-- The line of the construct lies before whatever closes it, and does not start with an equals sign.
The names are those of fields. -/
structure Settled (P : Text → Prop) (n : Node) : Prop where
  lies : ∀ r, closes r = true → n.line.Lies P r
  head : ∀ r, unequal (n.line.text ++ r) = true

namespace Settled
variable {P : Text → Prop}

/-- What is settled lies before whatever closes it. -/
theorem before {n : Node} (h : n.Settled P) {r : Text} (hr : closes r = true) : Lies P n.line r :=
  h.lies r hr

/-- A construct of one token is settled. -/
theorem token {kind : TokenKind} {u : Text} {n : Node} (h : Begins kind u [])
    (hk : kind ∈ [TokenKind.number, .identifier, .string, .keyword])
    (hu : ∃ d ∈ u, isDigit d = false) (hn : n.line = [some (kind, u)]) : n.Settled P := by
  constructor
  · intro r hr
    rw [hn]
    exact (Line.lies_token (l := []) (.of_begins h hk hu hr)).2 trivial
  · intro r
    rw [hn, Line.text_token, List.append_assoc]
    exact Line.unequal_of_begins h (by rintro rfl; simp at hk) _

/-- A construct of one keyword is settled. -/
theorem keyword (w : Keyword) {n : Node} (hn : n.line = [Line.word w]) : n.Settled P :=
  .token (Line.begins_keyword w) (by simp)
    (Line.not_digits_of_begins (Line.begins_keyword w) (.inr (.inr rfl))) hn

/-- Settled arguments lie with commas between them. -/
theorem arguments {as : List Argument} (h : ∀ a ∈ as, (argument a).Settled P) {r : Text}
    (hr : closes r = true) : Lies P (commas (Argument.lines as)) r := by
  rw [Argument.lines_eq_map]
  exact .commas (List.forall_mem_map.2 fun a ha => (h a ha).lies) hr

/-- Settled parameters lie with commas between them. -/
theorem parameters {ps : List Parameter} (h : ∀ p ∈ ps, (parameter p).Settled P) {r : Text}
    (hr : closes r = true) : Lies P (commas (ps.map Parameter.line)) r :=
  .commas (List.forall_mem_map.2 fun p hp => (h p hp).lies) hr

/-- Settled expressions lie with commas between them. -/
theorem items {es : List Expr} (h : ∀ e ∈ es, (expr e).Settled P) {r : Text}
    (hr : closes r = true) : Lies P (commas (Expr.lines es)) r := by
  rw [Expr.lines_eq_map]
  exact .commas (List.forall_mem_map.2 fun e he => (h e he).lies) hr

/-- Groups of settled bindings lie before anything. -/
theorem groups {gs : List (List Argument)} (h : ∀ g ∈ gs, ∀ a ∈ g, (argument a).Settled P)
    (r : Text) : Lies P (Argument.lineGroups gs) r := by
  induction gs with
  | nil => trivial
  | cons g gs ih =>
    rw [List.forall_mem_cons] at h
    simp only [Argument.lineGroups, List.cons_append]
    exact .word rfl (.mark rfl (.append (arguments h.1 rfl) (.mark rfl (ih h.2))))

/-- Settled statements lie one after the other. -/
theorem statements {ss : List Statement} (h : ∀ s ∈ ss, (statement s).Settled P) {r : Text}
    (hr : closes r = true) : Lies P (Statement.lineItems ss) r := by
  induction ss with
  | nil => trivial
  | cons s ss ih =>
    rw [List.forall_mem_cons] at h
    have next : closes ((Statement.lineItems ss).text ++ r) = true := by
      cases ss with
      | nil => exact hr
      | cons t ss => rfl
    exact .append (h.1.before next) (ih h.2)

/-! ### Expressions -/

section Expressions
variable {p : Place} {n : Text} {e a b : Expr} {as : List Argument}

theorem undef : (expr (.undef p)).Settled P := .keyword .undefWord rfl

theorem boolean (t : Bool) : (expr (.boolean p t)).Settled P :=
  .keyword (if t then .trueWord else .falseWord) rfl

/-- A number of single precision is settled, as its numeral is one token. -/
theorem number {v : Number.Double} (h : v.IsSingle) : (expr (.number p v)).Settled P :=
  .token (Lexeme.begins_number h.printedAs.spells) (by simp) h.printedAs.mark rfl

/-- A text is settled if it is one token between its quotes. -/
theorem text (h : IsWhole .string ('"' :: (n ++ ['"']))) : (expr (.text p n)).Settled P :=
  .token h.begins (by simp) (Line.not_digits_of_begins h.begins (.inr (.inl rfl))) rfl

/-- A variable is settled if its name is one token. -/
theorem name (hn : IsWhole .identifier n) : (expr (.variable p n)).Settled P := by
  refine .token hn.begins (by simp) (Line.not_digits_of_begins hn.begins (.inl rfl)) ?_
  rw [line, Expr.line, Line.name, reclassify_of_isWhole hn]

/-- An access to a field is settled if what is accessed is, and the field passes the test. -/
theorem member (h : (expr e).Settled P) (hn : IsWhole .identifier n) (field : P n) :
    (expr (.member p e n)).Settled P where
  lies r hr := by
    simp only [line, Expr.line]
    exact .append (h.before rfl) (.member hn field hr)
  head r := by
    simp only [line, Expr.line, Line.text_append, List.append_assoc]
    exact h.head _

theorem index (ha : (expr a).Settled P) (hb : (expr b).Settled P) :
    (expr (.index p a b)).Settled P where
  lies r _ := by
    simp only [line, Expr.line, List.append_assoc]
    exact .append (ha.before rfl) (.mark rfl (.append (hb.before rfl) (.mark rfl trivial)))
  head r := by
    simp only [line, Expr.line, Line.text_append, List.append_assoc]
    exact ha.head _

theorem vector {es : List Expr} (h : ∀ e ∈ es, (expr e).Settled P) :
    (expr (.vector p es)).Settled P where
  lies r _ := by
    simp only [line, Expr.line]
    exact .mark rfl (.append (items h rfl) (.mark rfl trivial))
  head _ := rfl

/-- A range is settled if its ends and its step are. -/
theorem range {s : Option Expr} (ha : (expr a).Settled P) (hs : ∀ e ∈ s, (expr e).Settled P)
    (hb : (expr b).Settled P) : (expr (.range p a s b)).Settled P where
  lies r _ := by
    simp only [line, Expr.line, List.append_assoc, List.cons_append]
    have stop {r : Text} : Lies P (mark ':' :: (b.line ++ [mark ']'])) r :=
      .mark rfl (.append (hb.before rfl) (.mark rfl trivial))
    cases s with
    | none => exact .mark rfl (.append (ha.before rfl) stop)
    | some e =>
      exact .mark rfl (.append (ha.before rfl) (.mark rfl (.append ((hs e rfl).before rfl) stop)))
  head _ := rfl

theorem call (hn : IsWhole .identifier n) (h : ∀ a ∈ as, (argument a).Settled P) :
    (expr (.call p n as)).Settled P where
  lies r _ := by
    simp only [line, Expr.line, List.cons_append]
    exact .name (.inl hn) rfl (.mark rfl (.append (arguments h rfl) (.mark rfl trivial)))
  head r := by
    simp only [line, Expr.line, List.cons_append, Line.text_token, List.append_assoc]
    exact Line.unequal_name (.inl hn) _

theorem comprehension {gs : List (List Argument)} (hg : ∀ g ∈ gs, ∀ a ∈ g, (argument a).Settled P)
    (ha : ∀ a ∈ as, (argument a).Settled P) (he : (expr e).Settled P) :
    (expr (.comprehension p gs as e)).Settled P where
  lies r _ := by
    simp only [line, Expr.line, List.append_assoc, List.cons_append]
    exact .mark rfl (.append (groups hg _) (.word rfl (.blank (.mark rfl (.append (arguments ha rfl)
      (.mark rfl (.blank (.append (he.before rfl) (.mark rfl trivial)))))))))
  head _ := rfl

theorem unary (o : UnaryOp) (h : (expr e).Settled P) : (expr (.unary p o e)).Settled P where
  lies r _ := by
    simp only [line, Expr.line, List.cons_append]
    refine .mark rfl (.unary o ?_ (.append (h.before rfl) (.mark rfl trivial)))
    rw [Line.text_append, List.append_assoc]
    exact h.head _
  head _ := rfl

/-- An operation is settled if both operands are; its operator stands between blanks. -/
theorem binary (o : BinaryOp) (ha : (expr a).Settled P) (hb : (expr b).Settled P) :
    (expr (.binary p a o b)).Settled P where
  lies r _ := by
    simp only [line, Expr.line, List.append_assoc, List.cons_append]
    exact .mark rfl (.append (ha.before rfl) (.blank (.binary o (.append (hb.before rfl)
      (.mark rfl trivial)))))
  head _ := rfl

theorem ternary {c : Expr} (hc : (expr c).Settled P) (ha : (expr a).Settled P)
    (hb : (expr b).Settled P) : (expr (.ternary p c a b)).Settled P where
  lies r _ := by
    simp only [line, Expr.line, List.append_assoc, List.cons_append]
    exact .mark rfl (.append (hc.before rfl) (.blank (.mark rfl (.blank (.append (ha.before rfl)
      (.blank (.mark rfl (.blank (.append (hb.before rfl) (.mark rfl trivial))))))))))
  head _ := rfl

/-- An expression with a lead is settled if its arguments and its body are. -/
theorem led (l : Lead) (ha : ∀ a ∈ as, (argument a).Settled P) (he : (expr e).Settled P) :
    (expr (.led p l as e)).Settled P where
  lies r _ := by
    simp only [line, Expr.line, List.append_assoc, List.cons_append]
    exact .mark rfl (.word rfl (.mark rfl (.append (arguments ha rfl) (.mark rfl (.blank
      (.append (he.before rfl) (.mark rfl trivial)))))))
  head _ := rfl

/-! ### Arguments and parameters -/

theorem positional (h : (expr e).Settled P) : (argument (.mk p none e)).Settled P :=
  ⟨h.lies, h.head⟩

theorem named (hn : IsWhole .identifier n) (h : (expr e).Settled P) :
    (argument (.mk p (some n) e)).Settled P where
  lies r hr := .name (.inl hn) rfl (.loose (.inl rfl) (h.head r) (h.before hr))
  head r := by
    simp only [line, Argument.line, Line.text_token, List.append_assoc]
    exact Line.unequal_name (.inl hn) _

theorem parameter (hn : IsWhole .identifier n) {d : Option Expr} (h : ∀ e ∈ d, (expr e).Settled P) :
    (Node.parameter ⟨p, n, d⟩).Settled P where
  lies r hr := by
    cases d with
    | none => exact .name (.inl hn) hr trivial
    | some e =>
      exact .name (.inl hn) rfl (.loose (.inl rfl) ((h e rfl).head r) ((h e rfl).before hr))
  head r := by
    cases d <;> simp only [line, Parameter.line, Line.text_token, List.append_assoc] <;>
      exact Line.unequal_name (.inl hn) _

end Expressions

/-! ### Statements -/

section Statements
variable {p : Place} {n : Text} {e : Expr} {s : Statement} {as : List Argument}
  {ps : List Parameter}

theorem empty : (statement (.empty p)).Settled P where
  lies _ _ := Lies.mark rfl trivial
  head _ := rfl

theorem block {ss : List Statement} (h : ∀ s ∈ ss, (statement s).Settled P) :
    (statement (.block p ss)).Settled P where
  lies r _ := by
    simp only [line, Statement.line, List.cons_append]
    exact .mark rfl (.append (statements h rfl) (.blank (.mark rfl trivial)))
  head _ := rfl

theorem moduleDefinition (hn : IsWhole .identifier n) (hp : ∀ p ∈ ps, (Node.parameter p).Settled P)
    (h : (statement s).Settled P) : (statement (.moduleDefinition p n ps s)).Settled P where
  lies r hr := by
    simp only [line, Statement.line, List.cons_append]
    exact .word rfl (.blank (.name (.inl hn) rfl (.mark rfl (.append (parameters hp rfl) (.mark rfl
      (.blank (h.before hr)))))))
  head _ := rfl

theorem functionDefinition (hn : IsWhole .identifier n)
    (hp : ∀ p ∈ ps, (Node.parameter p).Settled P) (h : (expr e).Settled P) :
    (statement (.functionDefinition p n ps e)).Settled P where
  lies r _ := by
    simp only [line, Statement.line, List.append_assoc, List.cons_append]
    exact .word rfl (.blank (.name (.inl hn) rfl (.mark rfl (.append (parameters hp rfl) (.mark rfl
      (.blank (.loose (.inl rfl) rfl (.blank (.append (h.before rfl) (.mark rfl trivial))))))))))
  head _ := rfl

theorem assignment (hn : IsWhole .identifier n) (h : (expr e).Settled P) :
    (statement (.assignment p n e)).Settled P where
  lies r _ := by
    simp only [line, Statement.line, List.cons_append]
    exact .name (.inl hn) rfl (.blank (.loose (.inl rfl) rfl (.blank (.append (h.before rfl)
      (.mark rfl trivial)))))
  head r := by
    simp only [line, Statement.line, List.cons_append, Line.text_token, List.append_assoc]
    exact Line.unequal_name (.inl hn) _

/-- A modifier, if there is one, before something. -/
theorem withModifier {l : Line} {r : Text} (h : Lies P l r) (hr : unequal (l.text ++ r) = true) :
    ∀ m : Option Modifier, Lies P (Modifier.line m ++ l) r
  | none => h
  | some m => .modifier m hr h

/-- No modifier starts with an equals sign, and what has none starts with what follows. -/
theorem unequal_modifier {l : Line} (h : ∀ r, unequal (l.text ++ r) = true) (r : Text) :
    ∀ m : Option Modifier, unequal ((Modifier.line m ++ l).text ++ r) = true
  | none => h r
  | some m => by cases m <;> rfl

/-- A call of a module is settled if its name is a name or a keyword that can be called. -/
theorem moduleCall (hn : IsWhole .identifier n ∨ n ∈ keywordCallees)
    (ha : ∀ a ∈ as, (argument a).Settled P) (h : (statement s).Settled P) (m : Option Modifier) :
    (statement (.call p n as s m)).Settled P := by
  have head (r : Text) : unequal (Line.text (Line.name n :: mark '(' ::
      (commas (Argument.lines as) ++ mark ')' :: none :: s.line)) ++ r) = true := by
    rw [Line.text_token, List.append_assoc]
    exact Line.unequal_name hn _
  constructor <;> simp only [line, Statement.line, List.append_assoc, List.cons_append]
  · exact fun r hr => withModifier (.name hn rfl (.mark rfl (.append (arguments ha rfl) (.mark rfl
      (.blank (h.before hr)))))) (head r) m
  · exact fun r => unequal_modifier head r m

theorem loop (ha : ∀ a ∈ as, (argument a).Settled P) (h : (statement s).Settled P)
    (m : Option Modifier) : (statement (.loop p as s m)).Settled P := by
  constructor <;> simp only [line, Statement.line, List.append_assoc, List.cons_append]
  · exact fun r hr => withModifier (.word rfl (.blank (.mark rfl (.append (arguments ha rfl)
      (.mark rfl (.blank (h.before hr))))))) rfl m
  · exact fun r => unequal_modifier (fun _ => rfl) r m

/-- A conditional is settled if its condition and its branches are. -/
theorem conditional (he : (expr e).Settled P) (h : (statement s).Settled P) {b : Option Statement}
    (hb : ∀ t ∈ b, (statement t).Settled P) : (statement (.conditional p e s b)).Settled P where
  lies r hr := by
    simp only [line, Statement.line, List.append_assoc, List.cons_append]
    refine .word rfl (.blank (.mark rfl (.append (he.before rfl) (.mark rfl (.blank ?_)))))
    cases b with
    | none => exact .append (h.before hr) trivial
    | some t => exact .append (h.before rfl) (.blank (.word rfl (.blank ((hb t rfl).before hr))))
  head _ := rfl

/-- A modifier before a settled statement is settled, since no statement starts with an equals
sign. -/
theorem modified (m : Modifier) (h : (statement s).Settled P) :
    (statement (.modified p m s)).Settled P where
  lies r hr := .modifier m (h.head r) (h.before hr)
  head r := by cases m <;> rfl

end Statements

/-- Being settled passes to every construct. -/
theorem formers : Node.Formers P (Settled P) where
  undef _ := undef
  boolean _ := boolean
  number _ _ := number
  text _ _ := text
  name _ _ := name
  member _ _ _ := member
  index _ _ _ := index
  vector _ _ := vector
  range _ _ _ _ := range
  call _ _ _ := call
  comprehension _ _ _ _ := comprehension
  unary _ o _ := unary o
  binary _ o _ _ := binary o
  ternary _ _ _ _ := ternary
  led _ l _ _ := led l
  positional _ _ := positional
  named _ _ _ := named
  parameter _ _ _ hn h := parameter hn h
  empty _ := empty
  block _ _ := block
  moduleDefinition _ _ _ _ := moduleDefinition
  functionDefinition _ _ _ _ := functionDefinition
  assignment _ _ _ := assignment
  moduleCall _ _ _ _ m hn ha h := moduleCall hn ha h m
  loop _ _ _ m ha h := loop ha h m
  conditional _ _ _ _ he h hb := conditional he h hb
  modified _ m _ h _ := modified m h

end Settled

end Node

end SolidScript
