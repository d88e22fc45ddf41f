import SolidScript.Proofs.Phrase.Basic
import SolidScript.Proofs.Phrase.Laid

/-!
# Phrase — trees are read as what their tokens spell

`Shape` says of every rule what trees it leaves and what they are read as: the construct that the
tokens of the rule spell.  `shape_of_expands` passes it from the pieces of every production to the
rule, so it holds of every match (`outcome_means`): the tree of a match is always read, and as
nothing but what stands in the source.
-/

namespace SolidScript.Grammar
open OfTree
open SolidScript.Tree (firstStart gather)

/-! ### Where trees start -/

theorem firstStart_append (ts us : List Tree) :
    firstStart (ts ++ us) = (firstStart ts).or (firstStart us) := by
  induction ts with
  | nil => simp [firstStart]
  | cons t ts ih => simp [firstStart, ih, Option.or_assoc]

theorem firstStart_gather (r : Rule) (ts : List Tree) : firstStart (gather r ts) = firstStart ts := by
  unfold gather
  split
  · rfl
  · simp [firstStart, Tree.start?]

/-- The trees start where the tokens do. -/
def Starts (ts : List Tree) (ks : List Token) : Prop := firstStart ts = place ks

theorem Starts.append {ts us : List Tree} {ks ls : List Token} (h : Starts ts ks)
    (k : Starts us ls) : Starts (ts ++ us) (ks ++ ls) := by
  unfold Starts at *
  rw [firstStart_append, place_append, h, k]

section Starts
variable {M : Rule → List Tree → List Token → Prop} (hM : ∀ r ts ks, M r ts ks → Starts ts ks)
include hM

theorem starts_of_by {p : Piece} {ts : List Tree} {ks : List Token} (h : Reading.By M p ts ks) :
    Starts ts ks := by
  cases p with
  | term t =>
    obtain ⟨k, -, -, rfl, rfl⟩ := h
    rfl
  | rule r => exact hM r ts ks h

theorem starts_of_inOrder :
    ∀ {ps : List Piece} {ts : List Tree} {ks : List Token},
      (Reading.By M).InOrder ps ts ks → Starts ts ks
  | [], _, _, h => by obtain ⟨rfl, rfl⟩ := h; rfl
  | p :: ps, _, _, h => by
      obtain ⟨us, ls, vs, ms, hp, h, rfl, rfl⟩ := h
      exact (starts_of_by hM hp).append (starts_of_inOrder h)

theorem starts_of_again {ps : List Piece} {ts : List Tree} {ks : List Token}
    (h : (Reading.By M).Again ps ts ks) : Starts ts ks := by
  induction h with
  | nil => rfl
  | cons h _ ih => exact (starts_of_inOrder hM h).append ih

theorem starts_of_expands {q : Production} {ts : List Tree} {ks : List Token}
    (h : (Reading.By M).Expands q ts ks) : Starts ts ks := by
  cases q with
  | sequence ps => exact starts_of_inOrder hM h
  | choice ps =>
    obtain ⟨p, -, hp⟩ := h
    exact starts_of_by hM hp
  | maybe p =>
    rcases h with ⟨rfl, rfl⟩ | h
    · rfl
    · exact starts_of_by hM h
  | many p => exact starts_of_again hM h
  | chain p s =>
    obtain ⟨us, ls, vs, ms, hp, h, rfl, rfl⟩ := h
    exact (starts_of_by hM hp).append (starts_of_again hM h)
  | notAhead t => obtain ⟨rfl, rfl⟩ := h; rfl

end Starts

/-! ### What the trees of a rule are read as -/

/-- One tree, read as an expression at the level. -/
def ReadsExpr (l : Level) (ts : List Tree) (ks : List Token) : Prop :=
  ∃ t e, ts = [t] ∧ expr? t = some e ∧ Spells (.expr l e) ks

/-- One tree, read as an argument. -/
def ReadsArgument (ts : List Tree) (ks : List Token) : Prop :=
  ∃ t a, ts = [t] ∧ argument? t = some a ∧ Spells (.argument a) ks

/-- One tree, read as a suffix. -/
def ReadsSuffix (ts : List Tree) (ks : List Token) : Prop :=
  ∃ t s, ts = [t] ∧ (∀ p e r, suffixes? p e (t :: r) = suffixes? p (s.onto p e) r) ∧
    Spells (.suffix s) ks

/-- One tree, read as a statement. -/
def ReadsStatement (ts : List Tree) (ks : List Token) : Prop :=
  ∃ t s, ts = [t] ∧ statement? t = some s ∧ Says (.statement s) ks

/-- A mark and an expression. -/
def ReadsAfter (m : Mark) (ts : List Tree) (ks : List Token) : Prop :=
  ∃ t u e k ls, ts = [t, u] ∧ expr? u = some e ∧ ks = k :: ls ∧ k.IsMark m ∧
    Spells (.expr .expression e) ls

/-- A list is read one by one, whatever stands between two of its things. -/
structure ReadsEach {α : Type} (one : Tree → Option α) (read : List Tree → Option (List α)) :
    Prop where
  nil : read [] = some []
  single : ∀ t, read [t] = do some [← one t]
  more : ∀ t u ts, read (t :: u :: ts) = do some ((← one t) :: (← read ts))

theorem readsEach_arguments : ReadsEach argument? arguments? :=
  ⟨by rw [arguments?], fun t => by rw [arguments?], fun t u ts => by rw [arguments?]⟩

theorem readsEach_items : ReadsEach expr? items? :=
  ⟨by rw [items?], fun t => by rw [items?], fun t u ts => by rw [items?]⟩

theorem readsEach_parameters : ReadsEach parameter? parameters? :=
  ⟨by rw [parameters?], fun t => by rw [parameters?], fun t u ts => by rw [parameters?]⟩

/-- Trees that are read as a list, alone and with one more after them. -/
def ReadsList {α : Type} (read : List Tree → Option (List α)) (P : α → List Token → Prop)
    (ts : List Tree) (ks : List Token) : Prop :=
  ∃ as, read ts = some as ∧ (∀ t, read (ts ++ [t]) = some as) ∧ Commas P as ks ∧
    ∀ c : Token, c.IsMark .comma → Commas P as (ks ++ [c])

/-- What the trees of a rule are, and what its tokens spell. -/
def Shape : Rule → List Tree → List Token → Prop
  | .document, _, _ => True
  | .statements, ts, ks =>
    ∃ p us ss, ts = [.node .statements p us] ∧ statements? us = some ss ∧ Says (.script ss) ks
  | .topStatement, ts, ks =>
    ∃ t s, ts = [t] ∧ statement? t = some s ∧
      ∀ ss ls, Says (.script ss) ls → Says (.script (s :: ss)) (ks ++ ls)
  | .statement, ts, ks | .closedStatement, ts, ks | .openStatement, ts, ks | .block, ts, ks
  | .moduleDefinition, ts, ks | .functionDefinition, ts, ks | .assignment, ts, ks
  | .closedIfElse, ts, ks | .openIfElse, ts, ks | .openIf, ts, ks | .closedModified, ts, ks
  | .openModified, ts, ks | .closedFor, ts, ks | .openFor, ts, ks | .closedCall, ts, ks
  | .openCall, ts, ks => ReadsStatement ts ks
  | .blockItems, ts, ks =>
    ∃ p us ss, ts = [.node .blockItems p us] ∧ statements? us = some ss ∧ Says (.statements ss) ks
  | .callName, ts, ks => ∃ k t, ts = [.leaf t k.start k.text] ∧ ks = [k] ∧ k.IsCallee
  | .assign, ts, ks => ∃ k t, ts = [t] ∧ ks = [k] ∧ k.IsMark .assign
  | .notAssign, ts, ks => ts = [] ∧ ks = []
  | .trailingComma, ts, ks =>
    ts = [] ∧ ks = [] ∨ ∃ t k, ts = [t] ∧ ks = [k] ∧ k.IsMark .comma
  | .parameters, ts, ks =>
    ∃ p us ps, ts = [.node .parameters p us] ∧ parameters? us = some ps ∧
      Commas SpellsParameter ps ks
  | .parameterGroup, ts, ks => ∃ ps, parameters? ts = some ps ∧ Commas SpellsParameter ps ks
  | .parameterItems, ts, ks => ReadsList parameters? SpellsParameter ts ks
  | .parameter, ts, ks => ∃ t a, ts = [t] ∧ parameter? t = some a ∧ SpellsParameter a ks
  | .parameterDefault, ts, ks =>
    ∃ p us, ts = [.node .parameterDefault p us] ∧ (us = [] ∧ ks = [] ∨ ReadsAfter .assign us ks)
  | .defaultGroup, ts, ks => ReadsAfter .assign ts ks
  | .arguments, ts, ks =>
    ∃ p us as, ts = [.node .arguments p us] ∧ arguments? us = some as ∧ Spells (.arguments as) ks
  | .argumentGroup, ts, ks => ∃ as, arguments? ts = some as ∧ Spells (.arguments as) ks
  | .argumentItems, ts, ks => ReadsList arguments? (fun a => Spells (.argument a)) ts ks
  | .argument, ts, ks | .namedArgument, ts, ks | .positionalArgument, ts, ks => ReadsArgument ts ks
  | .expression, ts, ks | .letExpression, ts, ks => ReadsExpr .expression ts ks
  | .letRun, ts, ks =>
    ∃ p us gs, ts = [.node .letRun p us] ∧ clauses? us = some gs ∧ gs ≠ [] ∧
      Spells (.clauses gs) ks
  | .letClause, ts, ks =>
    ∃ t g, ts = [t] ∧ (∀ r gs, clauses? r = some gs → clauses? (t :: r) = some (g :: gs)) ∧
      ∀ gs ls, Spells (.clauses gs) ls → Spells (.clauses (g :: gs)) (ks ++ ls)
  | .ternaryLevel, ts, ks | .echoExpression, ts, ks | .assertExpression, ts, ks
  | .ternary, ts, ks => ReadsExpr .ternary ts ks
  | .disjunction, ts, ks => ReadsExpr (.tier .disjunction) ts ks
  | .comparison, ts, ks => ReadsExpr (.tier .comparison) ts ks
  | .sum, ts, ks => ReadsExpr (.tier .sum) ts ks
  | .product, ts, ks => ReadsExpr (.tier .product) ts ks
  | .unaryLevel, ts, ks | .signed, ts, ks => ReadsExpr .unary ts ks
  | .access, ts, ks => ReadsExpr .access ts ks
  | .suffixes, ts, ks =>
    ∃ p us, ts = [.node .suffixes p us] ∧ ∀ e ls, Spells (.expr .access e) ls →
      ∃ e', suffixes? (place ls) e us = some e' ∧ Spells (.expr .access e') (ls ++ ks)
  | .suffix, ts, ks | .memberSuffix, ts, ks | .indexSuffix, ts, ks => ReadsSuffix ts ks
  | .primary, ts, ks | .parenthesized, ts, ks | .functionCall, ts, ks | .comprehension, ts, ks
  | .range, ts, ks | .vector, ts, ks => ReadsExpr .primary ts ks
  | .letClauses, ts, ks =>
    ∃ p us gs, ts = [.node .letClauses p us] ∧ clauses? us = some gs ∧ Spells (.clauses gs) ks
  | .rangeStep, ts, ks =>
    ∃ p us, ts = [.node .rangeStep p us] ∧ (us = [] ∧ ks = [] ∨ ReadsAfter .colon us ks)
  | .stepGroup, ts, ks => ReadsAfter .colon ts ks
  | .vectorBody, ts, ks =>
    ∃ p us es, ts = [.node .vectorBody p us] ∧ items? us = some es ∧ Spells (.items es) ks
  | .vectorGroup, ts, ks => ∃ es, items? ts = some es ∧ Spells (.items es) ks
  | .vectorItems, ts, ks => ReadsList items? (fun e => Spells (.expr .expression e)) ts ks

/-- The trees start where the tokens do, and are read as what these spell. -/
def Means (r : Rule) (ts : List Tree) (ks : List Token) : Prop := Starts ts ks ∧ Shape r ts ks

end SolidScript.Grammar
