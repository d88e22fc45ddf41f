import SolidScript.Proofs.Phrase.Sealing
import SolidScript.Proofs.Phrase.Standing
import SolidScript.Proofs.Words

/-!
# Scripts — the language that is read

The sources that are read are those whose tokens make up a document.  Matching is greedy, tries
alternatives in order and takes no finished choice back, and yet loses nothing: tokens that derive
from the grammar in any way say a script in which every `else` belongs to the nearest `if`, and
that script is found.

* `language_parseWith`: a source whose tokens make up a document is read; and the tokens of
  a source that is read make up a document, names that references start with aside.
-/

namespace SolidScript

namespace Grammar

theorem proper_of_reads {here : Cursor} {ks : List Token} (h : Reads here ks) :
    ∀ k ∈ ks, Proper k := by
  intro k hk
  obtain ⟨next, hl, -⟩ := laid_of_reads h
  obtain ⟨there, after, hat⟩ := hl.exists_at hk
  exact hat.proper

/-- The tokens of a document say a script that is found. -/
theorem exists_of_isDocument {source : Text} {ks : List Token}
    (hk : Token.ofSource source = .ok ks) (hd : IsDocument ks) :
    ∃ s : Script, Says (.script s) ks ∧ (∀ t ∈ s, (Node.statement t).Sealed) ∧
      LaidToEnd (.start source) ks := by
  have reads := ofSource_eq_ok_iff.1 hk
  obtain ⟨ss, hs⟩ := says_of_isDocument hd (proper_of_reads reads)
  obtain ⟨s, said, sealed⟩ := sealed_of_says hs
  exact ⟨s, said, sealed, laid_of_reads reads⟩

/-- A primary with nothing around it is an expression. -/
theorem derives_expression {ks : List Token} (h : Derives (.rule .primary) ks) :
    Derives (.rule .expression) ks := by
  have suffixes : Derives (.rule .suffixes) [] := .many rfl .nil
  have access : Derives (.rule .access) ks := by
    simpa using Derives.sequence (r := .access) rfl (.cons h (.cons suffixes .nil))
  have level : Derives (.rule .unaryLevel) ks := .choice rfl (by decide) access
  have disjunction : Derives (.rule .disjunction) ks :=
    .single rfl (.single rfl (.single rfl (.single rfl level)))
  exact .choice (r := .expression) (p := .rule .ternaryLevel) rfl (by decide)
    (.choice rfl (by decide) disjunction)

theorem derives_name {k : Token} (h : k.IsName) : Derives (.rule .expression) [k] :=
  derives_expression (.choice (p := .term .identifier) rfl (by decide) (.token h))

end Grammar

namespace Script
open Grammar (derives_expression derives_name exists_of_isDocument judge_ne_tooDeep
  parseWith_of_says says_of_parseWith Settings)

/-- A source whose tokens make up a document is read as one script with all settings that are deep
enough, and otherwise found too deep; and where no name in a script that is read starts a reference,
the tokens of its source make up a document. -/
theorem language_parseWith (source : Text) :
    (∀ ks, Token.ofSource source = .ok ks → IsDocument ks →
      ∃ s, (∀ settings, parseWith settings source = .ok s ∨
          parseWith settings source = .error ⟨.tooDeep, 0⟩) ∧
        ∃ depth, ∀ settings : Settings, depth < settings.depth →
          parseWith settings source = .ok s) ∧
    ∀ settings s, parseWith settings source = .ok s → s.NamesNoReference →
      ∃ ks, Token.ofSource source = .ok ks ∧ IsDocument ks := by
  constructor
  · intro ks hk hd
    obtain ⟨s, said, sealed, hl⟩ := exists_of_isDocument hk hd
    have parsed (settings : Settings) := parseWith_of_says settings said sealed hl
    refine ⟨s, fun settings => (parsed settings).imp_right And.right,
      Grammar.size (.rule .document) (.start source), fun settings h => ?_⟩
    exact (parsed settings).resolve_right fun deep => judge_ne_tooDeep h deep.1
  · intro settings s h names
    obtain ⟨ks, hl, said, hd⟩ := says_of_parseWith h
    obtain ⟨tokens, -⟩ := ofSource_of_says said hl names
    exact ⟨ks, tokens, hd⟩

/-- The tokens of `if(a)f(b,);else x=[c];`. -/
def conditionalTokens : List Token :=
  [⟨.keyword, Text.lit "if", 0⟩, ⟨.symbol, ['('], 2⟩, ⟨.identifier, ['a'], 3⟩, ⟨.symbol, [')'], 4⟩,
    ⟨.identifier, ['f'], 5⟩, ⟨.symbol, ['('], 6⟩, ⟨.identifier, ['b'], 7⟩, ⟨.symbol, [','], 8⟩,
    ⟨.symbol, [')'], 9⟩, ⟨.symbol, [';'], 10⟩, ⟨.keyword, Text.lit "else", 11⟩,
    ⟨.identifier, ['x'], 16⟩, ⟨.symbol, ['='], 17⟩, ⟨.symbol, ['['], 18⟩, ⟨.identifier, ['c'], 19⟩,
    ⟨.symbol, [']'], 20⟩, ⟨.symbol, [';'], 21⟩]

theorem isDocument_conditionalTokens : IsDocument conditionalTokens := by
  -- a call, with a comma after its only argument
  have value : Derives (.rule .expression) [⟨.identifier, ['b'], 7⟩] := derives_name rfl
  have argument : Derives (.rule .argument) [⟨.identifier, ['b'], 7⟩] :=
    .choice (p := .rule .positionalArgument) rfl (by decide) (.sequence rfl (.cons value .nil))
  have comma : Derives (.rule .trailingComma) [⟨.symbol, [','], 8⟩] :=
    .something (p := .mark .comma) rfl (.token ⟨rfl, rfl⟩)
  have arguments : Derives (.rule .arguments) [⟨.identifier, ['b'], 7⟩, ⟨.symbol, [','], 8⟩] :=
    .something (p := .rule .argumentGroup) rfl
      (.sequence rfl (.cons (.single (r := .argumentItems) rfl argument) (.cons comma .nil)))
  have name : Derives (.rule .callName) [⟨.identifier, ['f'], 5⟩] :=
    .choice (p := .term .identifier) rfl (by decide) (.token rfl)
  have semicolon : Derives (.rule .closedStatement) [⟨.symbol, [';'], 10⟩] :=
    .choice (p := .mark .semicolon) rfl (by decide) (.token ⟨rfl, rfl⟩)
  have call : Derives (.rule .closedCall)
      [⟨.identifier, ['f'], 5⟩, ⟨.symbol, ['('], 6⟩, ⟨.identifier, ['b'], 7⟩, ⟨.symbol, [','], 8⟩,
        ⟨.symbol, [')'], 9⟩, ⟨.symbol, [';'], 10⟩] :=
    .sequence rfl (.cons name (.token ⟨rfl, rfl⟩ (.cons arguments
      (.token ⟨rfl, rfl⟩ (.cons semicolon .nil)))))
  -- an assignment of a vector
  have items : Derives (.rule .vectorItems) [⟨.identifier, ['c'], 19⟩] :=
    .single rfl (derives_name rfl)
  have body : Derives (.rule .vectorBody) [⟨.identifier, ['c'], 19⟩] :=
    .something (p := .rule .vectorGroup) rfl
      (.sequence rfl (.cons items (.cons (.nothing (r := .trailingComma) rfl) .nil)))
  have vector : Derives (.rule .primary)
      [⟨.symbol, ['['], 18⟩, ⟨.identifier, ['c'], 19⟩, ⟨.symbol, [']'], 20⟩] :=
    .choice (p := .rule .vector) rfl (by decide)
      (.sequence rfl (.token ⟨rfl, rfl⟩ (.cons body (.token ⟨rfl, rfl⟩ .nil))))
  have assign : Derives (.rule .assign) [⟨.symbol, ['='], 17⟩] :=
    .sequence rfl (.token ⟨rfl, rfl⟩ (.cons (.notAhead (r := .notAssign) rfl) .nil))
  have assignment : Derives (.rule .assignment)
      [⟨.identifier, ['x'], 16⟩, ⟨.symbol, ['='], 17⟩, ⟨.symbol, ['['], 18⟩,
        ⟨.identifier, ['c'], 19⟩, ⟨.symbol, [']'], 20⟩, ⟨.symbol, [';'], 21⟩] :=
    .sequence rfl (.token rfl (.cons assign (.cons (derives_expression vector)
      (.token ⟨rfl, rfl⟩ .nil))))
  -- the conditional that has both for branches
  have condition : Derives (.rule .expression) [⟨.identifier, ['a'], 3⟩] := derives_name rfl
  have conditional : Derives (.rule .closedIfElse) conditionalTokens :=
    .sequence rfl (.token ⟨rfl, rfl⟩ (.token ⟨rfl, rfl⟩ (.cons condition
      (.token ⟨rfl, rfl⟩ (.cons (.choice (r := .closedStatement) rfl (by decide) call)
        (.token ⟨rfl, rfl⟩ (.cons (.choice (r := .closedStatement) rfl (by decide) assignment)
          .nil)))))))
  have statement : Derives (.rule .statement) conditionalTokens :=
    .choice (p := .rule .closedStatement) rfl (by decide) (.choice rfl (by decide) conditional)
  have document : Derives (.rule .topStatement) conditionalTokens :=
    .choice rfl (by decide) statement
  exact Grammar.isDocument_iff.2 (.many rfl (.once document))

/-- Answers have no decidable equality; the shape of one shows the names in it. -/
theorem exists_ok_conditional {r : Except Failure Script}
    (h : (match r with
      | .ok [.conditional _ (.variable _ ['a'])
          (.call _ ['f'] [.mk _ none (.variable _ ['b'])] (.empty _) none)
          (some (.assignment _ ['x'] (.vector _ [.variable _ ['c']])))] => true
      | _ => false) = true) :
    ∃ p₀ p₁ p₂ p₃ p₄ p₅ p₆ p₇ p₈, r = .ok [.conditional p₀ (.variable p₁ ['a'])
      (.call p₂ ['f'] [.mk p₃ none (.variable p₄ ['b'])] (.empty p₅) none)
      (some (.assignment p₆ ['x'] (.vector p₇ [.variable p₈ ['c']])))] := by
  split at h
  · exact ⟨_, _, _, _, _, _, _, _, _, rfl⟩
  · cases h

/-- A conditional with an `else`, a call with a comma after its argument, and a vector. -/
theorem language_parseWith_conditional :
    (∃ s depth, ∀ settings : Settings, depth < settings.depth →
      parseWith settings (Text.lit "if(a)f(b,);else x=[c];") = .ok s) ∧
    ∃ ks, Token.ofSource (Text.lit "if(a)f(b,);else x=[c];") = .ok ks ∧ IsDocument ks := by
  obtain ⟨accepts, derives⟩ := language_parseWith (Text.lit "if(a)f(b,);else x=[c];")
  constructor
  · have tokens : Token.ofSource (Text.lit "if(a)f(b,);else x=[c];") = .ok conditionalTokens := rfl
    obtain ⟨s, -, depth, h⟩ := accepts _ tokens isDocument_conditionalTokens
    exact ⟨s, depth, h⟩
  · obtain ⟨p₀, p₁, p₂, p₃, p₄, p₅, p₆, p₇, p₈, read⟩ := exists_ok_conditional
      (r := parseWith ⟨100, true⟩ (Text.lit "if(a)f(b,);else x=[c];")) (by decide +kernel)
    refine derives _ _ read (namesNoReference_iff.2 ?_)
    simp [Node.forall_within_iff (n := .statement _), Node.forall_within_iff (n := .expr _),
      Node.forall_within_iff (n := .argument _), Node.children, Node.ofStatement, Node.ofExpr,
      Node.name?, Lexeme.referenceWords, Text.lit]

end Script

end SolidScript
