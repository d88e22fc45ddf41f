import SolidScript.Grammar.Rule
import SolidScript.Token.Basic

/-!
# Grammar — derivations

The documents of the grammar as lists of tokens.  Here a choice is free, a repetition has any
length, nothing is looked for that is not taken, and the two families of statements are one: an
`if` may stand anywhere, with an `else` or without.

* `Terminal.Accepts`: the tokens that a terminal stands for.
* `Derives`: the token lists of a terminal or a rule.
-/

namespace SolidScript

/-- The token is one that the terminal stands for. -/
def Terminal.Accepts : Terminal → Token → Prop
  | .comment,        _ => False
  | .useFile,        k => k.kind = .useFile
  | .includeFile,    k => k.kind = .includeFile
  | .identifier,     k => k.kind = .identifier
  | .number,         k => k.kind = .number
  | .string,         k => k.kind = .string
  | .keyword w,      k => k.kind = .keyword ∧ k.text = w.spelling
  | .mark m,         k => k.kind = .symbol ∧ k.text = [m.char]
  | .period,         k => k.kind = .symbol ∧ k.text = ['.']
  | .logical,        k => k.kind = .symbol ∧ k.text ∈ [['|', '|'], ['&', '&']]
  | .comparison,     k =>
    k.kind = .symbol ∧ k.text ∈ [['<', '='], ['>', '='], ['=', '='], ['!', '='], ['<'], ['>']]
  | .additive,       k => k.kind = .symbol ∧ k.text ∈ [['-'], ['+']]
  | .multiplicative, k => k.kind = .symbol ∧ k.text ∈ [['*'], ['/'], ['%']]
  | .unary,          k => k.kind = .symbol ∧ k.text ∈ [['-'], ['+'], ['!']]
  | .modifier,       k => k.kind = .symbol ∧ k.text ∈ [['*'], ['!'], ['#'], ['%']]
  | .endOfInput,     _ => False

instance : (t : Terminal) → (k : Token) → Decidable (t.Accepts k)
  | .comment, _ | .endOfInput, _ => inferInstanceAs (Decidable False)
  | .useFile, _ | .includeFile, _ | .identifier, _ | .number, _ | .string, _ =>
    inferInstanceAs (Decidable (_ = _))
  | .keyword _, _ | .mark _, _ | .period, _ => inferInstanceAs (Decidable (_ = _ ∧ _ = _))
  | .logical, _ | .comparison, _ | .additive, _ | .multiplicative, _ | .unary, _ | .modifier, _ =>
    inferInstanceAs (Decidable (_ = _ ∧ _ ∈ _))

/-- The token is the mark. -/
abbrev Token.IsMark (k : Token) (m : Mark) : Prop := (Terminal.mark m).Accepts k

/-- The token is the keyword. -/
abbrev Token.IsWord (k : Token) (w : Keyword) : Prop := (Terminal.keyword w).Accepts k

/-- The token is a name. -/
abbrev Token.IsName (k : Token) : Prop := Terminal.identifier.Accepts k

mutual

/-- The tokens derive from a terminal or a rule. -/
inductive Derives : Piece → List Token → Prop where
  | token {t : Terminal} {k : Token} (h : t.Accepts k) : Derives (.term t) [k]
  | endOfInput : Derives (.term .endOfInput) []
  | sequence {r : Rule} {ps : List Piece} {ks : List Token} (h : r.production = .sequence ps)
      (d : DerivesAll ps ks) : Derives (.rule r) ks
  | choice {r : Rule} {ps : List Piece} {p : Piece} {ks : List Token}
      (h : r.production = .choice ps) (m : p ∈ ps) (d : Derives p ks) : Derives (.rule r) ks
  | nothing {r : Rule} {p : Piece} (h : r.production = .maybe p) : Derives (.rule r) []
  | something {r : Rule} {p : Piece} {ks : List Token} (h : r.production = .maybe p)
      (d : Derives p ks) : Derives (.rule r) ks
  | many {r : Rule} {p : Piece} {ks : List Token} (h : r.production = .many p)
      (d : DerivesMany [p] ks) : Derives (.rule r) ks
  | chain {r : Rule} {p : Piece} {s : Option Piece} {ks ls : List Token}
      (h : r.production = .chain p s) (d : Derives p ks)
      (e : DerivesMany (s.toList ++ [p]) ls) : Derives (.rule r) (ks ++ ls)
  | notAhead {r : Rule} {t : Terminal} (h : r.production = .notAhead t) : Derives (.rule r) []
  /-- Any statement stands where one of either family does. -/
  | family {r : Rule} {ks : List Token} (h : r = .closedStatement ∨ r = .openStatement)
      (d : Derives (.rule .statement) ks) : Derives (.rule r) ks

/-- The tokens derive from the pieces, one after the other. -/
inductive DerivesAll : List Piece → List Token → Prop where
  | nil : DerivesAll [] []
  | cons {p : Piece} {ps : List Piece} {ks ls : List Token} (d : Derives p ks)
      (e : DerivesAll ps ls) : DerivesAll (p :: ps) (ks ++ ls)

/-- The tokens derive from the pieces, one after the other, any number of times over. -/
inductive DerivesMany : List Piece → List Token → Prop where
  | nil {ps : List Piece} : DerivesMany ps []
  | cons {ps : List Piece} {ks ls : List Token} (d : DerivesAll ps ks)
      (e : DerivesMany ps ls) : DerivesMany ps (ks ++ ls)

end

/-- A token before what derives from other pieces. -/
theorem DerivesAll.token {t : Terminal} {ps : List Piece} {k : Token} {ks : List Token}
    (h : t.Accepts k) (e : DerivesAll ps ks) : DerivesAll (.term t :: ps) (k :: ks) :=
  .cons (.token h) e

/-- What derives from a piece derives from any number of it. -/
theorem DerivesMany.once {p : Piece} {ks : List Token} (d : Derives p ks) : DerivesMany [p] ks := by
  simpa using DerivesMany.cons (.cons d .nil) (@DerivesMany.nil [p])

/-- A chain of one piece. -/
theorem Derives.single {r : Rule} {p : Piece} {s : Option Piece} {ks : List Token}
    (h : r.production = .chain p s) (d : Derives p ks) : Derives (.rule r) ks := by
  simpa using Derives.chain h d .nil

/-- The tokens make up a document. -/
def IsDocument (ks : List Token) : Prop := Derives (.rule .document) ks

end SolidScript
