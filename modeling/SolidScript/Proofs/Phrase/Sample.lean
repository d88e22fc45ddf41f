import SolidScript.Proofs.Phrase.Cut

/-!
# Phrase — something that every piece derives

Every rule derives some tokens: there is an order of the rules, their height, in which each comes
after the pieces of one way through its production (`Rule.builds_production`).  The tokens can be
taken from a few samples, one for each terminal.  Tokens can be written one to a line, and lie in the
text then (`laidToEnd_written`).
-/

namespace SolidScript
open Text (lit)

namespace Terminal

/-- A token of the terminal, if it stands for any. -/
def sample : Terminal → Option (TokenKind × Text)
  | comment | endOfInput => none
  | useFile        => some (.useFile, lit "use<>")
  | includeFile    => some (.includeFile, lit "include<>")
  | identifier     => some (.identifier, ['a'])
  | number         => some (.number, ['0'])
  | string         => some (.string, ['"', '"'])
  | keyword k      => some (.keyword, k.spelling)
  | mark m         => some (.symbol, [m.char])
  | period         => some (.symbol, ['.'])
  | logical        => some (.symbol, ['|', '|'])
  | comparison     => some (.symbol, ['<'])
  | additive       => some (.symbol, ['-'])
  | multiplicative => some (.symbol, ['*'])
  | unary          => some (.symbol, ['-'])
  | modifier       => some (.symbol, ['#'])

theorem accepts_sample {t : Terminal} {kind : TokenKind} {u : Text} (h : t.sample = some (kind, u))
    (n : Nat) : t.Accepts ⟨kind, u, n⟩ := by
  cases t <;> cases h <;> simp [Accepts]

end Terminal

/-- How many rules have to be gone down at least to derive something from the rule. -/
def Rule.height : Rule → Nat
  | statements | blockItems | closedStatement | topStatement | callName
  | notAssign | trailingComma | parameters | parameterDefault | arguments
  | suffixes | memberSuffix | primary | letClauses | rangeStep | vectorBody => 1
  | document | statement | block | closedModified | closedFor | closedCall
  | assign | parameter | letClause | access | suffix | functionCall | vector => 2
  | moduleDefinition | parameterItems | letRun | unaryLevel => 3
  | parameterGroup | product | signed => 4
  | sum => 5
  | comparison => 6
  | disjunction => 7
  | ternaryLevel => 8
  | expression | letExpression => 9
  | positionalArgument | functionDefinition | assignment | closedIfElse | openIf | defaultGroup
  | namedArgument | echoExpression | assertExpression | ternary | indexSuffix | parenthesized
  | comprehension | range | stepGroup | vectorItems => 10
  | argument | openStatement | vectorGroup => 11
  | argumentItems | openIfElse | openModified | openFor | openCall => 12
  | argumentGroup => 13

/-- How many rules have to be gone down to derive something from the piece; a comment is never
derived. -/
def Piece.height : Piece → Nat
  | term t => if t = .comment then 14 else 0
  | rule r => r.height

/-- Something derives from the production if it does from the pieces below the bound. -/
def Production.builds (bound : Nat) : Production → Bool
  | .sequence ps => ps.all fun p => p.height < bound
  | .choice ps   => ps.any fun p => p.height < bound
  | .chain p _   => p.height < bound
  | .maybe _ | .many _ | .notAhead _ => true

theorem Rule.builds_production (r : Rule) : r.production.builds r.height = true := by
  cases r <;> decide

/-- The token is a sample of a terminal. -/
def Token.IsSample (k : Token) : Prop := ∃ t : Terminal, t.sample = some (k.kind, k.text)

/-- The text of the token is the token where nothing follows it. -/
def Token.Alone (k : Token) : Prop := Lexeme.Begins k.kind k.text []

/-- Sample tokens derive from the piece. -/
def Piece.HasSample (p : Piece) : Prop := ∃ ks, Derives p ks ∧ ∀ k ∈ ks, k.IsSample

theorem Terminal.hasSample {t : Terminal} (ht : t ≠ .comment) : (Piece.term t).HasSample := by
  cases hs : t.sample with
  | some o =>
    refine ⟨[⟨o.1, o.2, 0⟩], .token (accepts_sample hs 0), fun k hk => ?_⟩
    obtain rfl := List.mem_singleton.1 hk
    exact ⟨t, hs⟩
  | none =>
    obtain rfl : t = .endOfInput := by cases t <;> first | rfl | exact absurd rfl ht | cases hs
    exact ⟨[], .endOfInput, by simp⟩

theorem Piece.hasSample_all {ps : List Piece} (h : ∀ p ∈ ps, p.HasSample) :
    ∃ ks, DerivesAll ps ks ∧ ∀ k ∈ ks, k.IsSample := by
  induction ps with
  | nil => exact ⟨[], .nil, by simp⟩
  | cons p ps ih =>
    rw [List.forall_mem_cons] at h
    obtain ⟨ks, hd, hk⟩ := h.1
    obtain ⟨ls, hds, hl⟩ := ih h.2
    exact ⟨ks ++ ls, .cons hd hds, List.forall_mem_append.2 ⟨hk, hl⟩⟩

/-- Sample tokens derive from every rule. -/
theorem Rule.hasSample (r : Rule) : (Piece.rule r).HasSample := by
  generalize hn : r.height = n
  induction n using Nat.strongRecOn generalizing r with
  | ind n ih =>
    subst hn
    have lower {p : Piece} (h : p.height < r.height) : p.HasSample := by
      cases p with
      | rule q => exact ih q.height h q rfl
      | term t =>
        refine Terminal.hasSample fun hc => ?_
        have bound : r.height < 14 := by cases r <;> decide
        simp only [Piece.height, hc, if_true] at h
        omega
    have builds := r.builds_production
    cases hq : r.production <;> simp only [hq, Production.builds] at builds
    case sequence ps =>
      obtain ⟨ks, hd, hk⟩ := @Piece.hasSample_all ps fun p hp =>
        lower (by simpa using List.all_eq_true.1 builds p hp)
      exact ⟨ks, .sequence hq hd, hk⟩
    case choice ps =>
      obtain ⟨p, hp, hl⟩ := List.any_eq_true.1 builds
      obtain ⟨ks, hd, hk⟩ := lower (of_decide_eq_true hl)
      exact ⟨ks, .choice hq hp hd, hk⟩
    case maybe p => exact ⟨[], .nothing hq, by simp⟩
    case many p => exact ⟨[], .many hq .nil, by simp⟩
    case chain p s =>
      obtain ⟨ks, hd, hk⟩ := lower (of_decide_eq_true builds)
      exact ⟨ks, .single hq hd, hk⟩
    case notAhead t => exact ⟨[], .notAhead hq, by simp⟩

theorem Piece.hasSample {p : Piece} (hp : p ≠ .term .comment) : p.HasSample := by
  cases p with
  | term t => exact Terminal.hasSample fun h => hp (by rw [h])
  | rule r => exact r.hasSample

namespace Grammar
open Lexeme (Begins Parts)

/-! ### Samples written down -/

/-- The texts of the tokens, each on a line of its own. -/
def written (ks : List Token) : Text := ks.flatMap fun k => '\n' :: k.text

theorem parts_written (ks : List Token) : Parts (written ks) := by
  intro c w h
  cases ks with
  | nil => cases h
  | cons k ks => exact Lexeme.parts_newline _ c w h

/-- A sample is a token. -/
theorem begins_sample {t : Terminal} {kind : TokenKind} {u : Text} (h : t.sample = some (kind, u)) :
    Begins kind u [] := by
  cases t with
  | useFile => cases h; exact .useFile (by decide) rfl
  | includeFile => cases h; exact .includeFile (by decide) rfl
  | keyword w => cases h; cases w <;> exact .plain (by decide)
  | mark m => cases h; cases m <;> exact .plain (by decide)
  | comment | endOfInput => cases h
  | _ => cases h; exact .plain (by decide)

theorem alone_of_isSample {k : Token} (h : k.IsSample) : k.Alone := by
  obtain ⟨t, ht⟩ := h
  exact begins_sample ht

theorem At.alone {here next : Cursor} {k : Token} (h : At here k next) : k.Alone := by
  obtain ⟨-, begins, -⟩ := at_iff.1 h
  exact Begins.cut (v := []) (s := next.rest) begins fun _ _ h => by cases h

/-- A token before others that are written down lies in the text. -/
theorem at_of_alone {k : Token} (h : k.Alone) (ks : List Token) {g : Text}
    (hg : IsGap g (k.text ++ written ks)) (o : Nat) :
    At ⟨o, g ++ (k.text ++ written ks)⟩ ⟨k.kind, k.text, o + g.length⟩
      ⟨o + g.length + k.text.length, written ks⟩ := by
  have begins := Begins.cut (v := []) (s := []) h (parts_written ks)
  refine at_of_begins hg begins fun _ hm => ?_
  cases hw : written ks with
  | nil => rw [hw] at hm; simp at hm
  | cons c w =>
    have blank := parts_written ks c w hw
    rw [hw] at hm
    rcases (by simpa using hm : c = '/' ∨ c = '*') with rfl | rfl <;> exact absurd blank (by decide)

/-- Tokens that are written down lie in the text. -/
theorem laidToEnd_written {ks : List Token} (h : ∀ k ∈ ks, k.Alone) (o : Nat) :
    ∃ ls, LaidToEnd ⟨o, written ks⟩ ls ∧ ls.map Token.shape = ks.map Token.shape := by
  induction ks generalizing o with
  | nil => exact ⟨[], ⟨_, .nil _, rfl⟩, rfl⟩
  | cons k ks ih =>
    rw [List.forall_mem_cons] at h
    have first := at_of_alone h.1 ks (g := ['\n']) (.blank (by decide) (.nil _)) o
    obtain ⟨ls, hl, ha⟩ := ih h.2 (o + ['\n'].length + k.text.length)
    exact ⟨_ :: ls, laidToEnd_cons_iff.2 ⟨_, first, hl⟩, by rw [List.map_cons, ha]; rfl⟩

end Grammar

end SolidScript
