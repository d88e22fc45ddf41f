import Mathlib.Data.List.Chain
import SolidScript.Proofs.Matching.Outcome
import SolidScript.Proofs.Phrase.First

/-!
# Phrase — neighbours that stay apart

Next to each other, some symbols would be read as something else: a stroke and a star as the start
of a comment, an equals sign or an exclamation mark and an equals sign as a comparison.  In a
document no such two are neighbours, so its tokens stay the same however close they stand.

What a token list of a piece may start with and end in is bounded by a table of the rules
(`Rule.avoids`, `Rule.joins`), which every production keeps (`Rule.fits_production`).

* `isChain_apart_of_isDocument`: the neighbours in a document stay apart.
-/

namespace SolidScript

/-- The characters that must not follow the token directly. -/
def Token.joins (k : Token) : List Char :=
  if k.kind = .symbol then
    if k.text = ['/'] then ['*'] else if k.text = ['='] ∨ k.text = ['!'] then ['='] else []
  else []

/-- The token is a symbol that starts with the character. -/
def Token.StartsWith (k : Token) (c : Char) : Prop := k.kind = .symbol ∧ k.text.head? = some c

/-- The second token does not start with what must not follow the first. -/
def Token.Apart (a b : Token) : Prop := ∀ c ∈ a.joins, ¬ b.StartsWith c

namespace Terminal

/-- The characters that must not follow a token of the terminal directly. -/
def joins : Terminal → List Char
  | multiplicative => ['*']
  | unary | modifier | mark .assign => ['=']
  | _ => []

/-- Of these characters, those that no token of the terminal starts with. -/
def avoids (t : Terminal) : List Char :=
  ['*', '='].filter fun c => (t.texts?.getD []).all fun w => w.head? != some c

theorem joins_subset {t : Terminal} {k : Token} (h : t.Accepts k) : k.joins ⊆ t.joins := by
  unfold Token.joins
  split
  · rename_i symbol
    have kind := kind_of_accepts h
    cases hw : t.texts? with
    | none => rw [symbol] at kind; cases t <;> cases hw <;> cases kind
    | some ws =>
      have mem := text_of_accepts h hw
      have table : ∀ w ∈ ws,
          (if w = ['/'] then ['*'] else if w = ['='] ∨ w = ['!'] then ['='] else []) ⊆ t.joins := by
        cases t with
        | keyword w => cases hw; cases w <;> decide
        | mark m => cases hw; cases m <;> decide
        | comment | endOfInput | useFile | includeFile | identifier | number | string => cases hw
        | _ => cases hw; decide
      exact table _ mem
  · simp

theorem not_startsWith_of_avoids {t : Terminal} {k : Token} (h : t.Accepts k) {c : Char}
    (hc : c ∈ t.avoids) : ¬ k.StartsWith c := by
  rintro ⟨symbol, head⟩
  have kind := kind_of_accepts h
  cases hw : t.texts? with
  | none => rw [symbol] at kind; cases t <;> cases hw <;> cases kind
  | some ws =>
    have mem := text_of_accepts h hw
    have table := (List.mem_filter.1 hc).2
    rw [hw] at table
    simpa [head] using List.all_eq_true.1 table _ mem

end Terminal

/-! ### What pieces start with and end in -/

/-- The characters that must not follow the tokens of the rule directly. -/
def Rule.joins : Rule → List Char
  | assign => ['=']
  | _ => []

/-- Of these characters, those that no tokens of the rule start with. -/
def Rule.avoids : Rule → List Char
  | assign | defaultGroup | parameterDefault => ['*']
  | document | statements | topStatement | statement | closedStatement | openStatement
  | blockItems | closedModified | openModified => ['=']
  | _ => ['*', '=']

namespace Piece

/-- The characters that must not follow the tokens of the piece directly. -/
def joins : Piece → List Char
  | term t => t.joins
  | rule r => r.joins

/-- Of these characters, those that no tokens of the piece start with. -/
def avoids : Piece → List Char
  | term t => t.avoids
  | rule r => r.avoids

/-- What no tokens of the pieces in order start with. -/
def allAvoid : List Piece → List Char
  | []      => ['*', '=']
  | p :: ps => if p.nullable then p.avoids.filter (· ∈ allAvoid ps) else p.avoids

/-- What must not follow the tokens of the pieces in order directly. -/
def allJoin : List Piece → List Char
  | []      => []
  | p :: ps => (if ps.all nullable then p.joins else []) ++ allJoin ps

/-- Neighbours among the pieces stay apart. -/
def fit : List Piece → Bool
  | []      => true
  | p :: ps => p.joins.all (· ∈ allAvoid ps) && fit ps

/-- Neighbours among the pieces stay apart when these come again and again. -/
def fitAgain (ps : List Piece) : Bool := (allJoin ps).all (· ∈ allAvoid ps) && fit ps

end Piece

/-- The production keeps to the table of its rule. -/
def Production.fits (avoids joins : List Char) : Production → Bool
  | .sequence ps => avoids ⊆ Piece.allAvoid ps ∧ Piece.allJoin ps ⊆ joins ∧ Piece.fit ps
  | .choice ps   => ∀ p ∈ ps, avoids ⊆ p.avoids ∧ p.joins ⊆ joins
  | .maybe p     => avoids ⊆ p.avoids ∧ p.joins ⊆ joins
  | .many p      => avoids ⊆ Piece.allAvoid [p] ∧ Piece.allJoin [p] ⊆ joins ∧ Piece.fitAgain [p]
  | .chain p s   =>
    avoids ⊆ p.avoids ∧ p.joins ⊆ joins ∧ Piece.allJoin (s.toList ++ [p]) ⊆ joins ∧
      p.joins ⊆ Piece.allAvoid (s.toList ++ [p]) ∧ p.nullable = false ∧
      Piece.fitAgain (s.toList ++ [p])
  | .notAhead _  => true

theorem Rule.fits_production (r : Rule) : r.production.fits r.avoids r.joins = true := by
  cases r <;> decide

/-- A rule keeps to its table by its production. -/
theorem Rule.fits_of_production {r : Rule} {q : Production} (h : r.production = q) :
    q.fits r.avoids r.joins = true := h ▸ r.fits_production

/-- A rule may take nothing if its production may. -/
theorem Piece.nullable_of_production {r : Rule} {q : Production} (h : r.production = q)
    (hn : q.nullable = true) : (Piece.rule r).nullable = true := by
  rwa [Piece.nullable, ← r.nullable_production, h]

/-! ### Token lists -/

/-- Neighbours stay apart, and what the tokens start with and end in is bounded. -/
structure Fits (avoids joins : List Char) (nullable : Bool) (ks : List Token) : Prop where
  head : ∀ k ∈ ks.head?, ∀ c ∈ avoids, ¬ k.StartsWith c
  last : ∀ k ∈ ks.getLast?, k.joins ⊆ joins
  chain : ks.IsChain Token.Apart
  empty : ks = [] → nullable = true

namespace Fits
variable {avoids avoids' joins joins' : List Char} {n n' : Bool} {ks ls : List Token}

theorem nil (avoids joins : List Char) : Fits avoids joins true [] :=
  ⟨by simp, by simp, .nil, fun _ => rfl⟩

theorem mono (h : Fits avoids joins n ks) (ha : avoids' ⊆ avoids) (hj : joins ⊆ joins')
    (hn : n = true → n' = true) : Fits avoids' joins' n' ks :=
  ⟨fun k hk c hc => h.head k hk c (ha hc), fun k hk => List.Subset.trans (h.last k hk) hj, h.chain,
    fun he => hn (h.empty he)⟩

/-- Token lists after each other, if what must not follow the first does not start the second: an
empty one leaves it to its neighbour what the whole starts with and ends in. -/
theorem append (h : Fits avoids joins n ks) (k : Fits avoids' joins' n' ls) (hj : joins ⊆ avoids') :
    Fits (if n then avoids.filter (· ∈ avoids') else avoids)
      ((if n' then joins else []) ++ joins') (n && n') (ks ++ ls) where
  head a ha c hc := by
    by_cases empty : ks = []
    · rw [if_pos (h.empty empty), List.mem_filter, decide_eq_true_eq] at hc
      rw [empty] at ha
      exact k.head a ha c hc.2
    · rw [List.head?_append_of_ne_nil _ empty] at ha
      refine h.head a ha c ?_
      split at hc
      · exact (List.mem_filter.1 hc).1
      · exact hc
  last a ha := by
    by_cases empty : ls = []
    · rw [if_pos (k.empty empty)]
      rw [empty, List.append_nil] at ha
      exact List.Subset.trans (h.last a ha) (List.subset_append_left _ _)
    · rw [List.getLast?_append_of_ne_nil _ empty] at ha
      exact List.Subset.trans (k.last a ha) (List.subset_append_right _ _)
  chain := List.isChain_append.2
    ⟨h.chain, k.chain, fun a ha b hb c hc => k.head b hb c (hj (h.last a ha hc))⟩
  empty he := by
    obtain ⟨hks, hls⟩ := List.append_eq_nil_iff.1 he
    rw [h.empty hks, k.empty hls]
    rfl

end Fits

mutual

/-- Tokens that derive from a piece keep to its table. -/
theorem fits_of_derives : ∀ {p : Piece} {ks : List Token}, Derives p ks →
    Fits p.avoids p.joins p.nullable ks
  | _, _, @Derives.token _ k h => by
    refine ⟨fun l hl c hc => ?_, fun l hl => ?_, .singleton k, fun h => by cases h⟩
    · obtain rfl := Option.some.inj hl
      exact Terminal.not_startsWith_of_avoids h hc
    · obtain rfl := Option.some.inj hl
      exact Terminal.joins_subset h
  | _, _, .endOfInput => .nil _ _
  | .rule r, _, .sequence h d => by
    have table := Rule.fits_of_production h
    simp only [Production.fits, decide_eq_true_eq] at table
    exact (fits_of_derivesAll table.2.2 d).mono table.1 table.2.1 fun hn =>
      Piece.nullable_of_production h hn
  | .rule r, _, .choice h m d => by
    have table := Rule.fits_of_production h
    simp only [Production.fits, decide_eq_true_eq] at table
    exact (fits_of_derives d).mono (table _ m).1 (table _ m).2 fun hn =>
      Piece.nullable_of_production h (List.any_eq_true.2 ⟨_, m, hn⟩)
  | .rule r, _, .nothing h => (Fits.nil _ _).mono (fun _ => id) (fun _ => id) fun _ =>
      Piece.nullable_of_production h rfl
  | .rule r, _, .something h d => by
    have table := Rule.fits_of_production h
    simp only [Production.fits, decide_eq_true_eq] at table
    exact (fits_of_derives d).mono table.1 table.2 fun _ =>
      Piece.nullable_of_production h rfl
  | .rule r, _, .many h d => by
    have table := Rule.fits_of_production h
    simp only [Production.fits, decide_eq_true_eq] at table
    exact (fits_of_derivesMany table.2.2 d).mono table.1 table.2.1 fun _ =>
      Piece.nullable_of_production h rfl
  | .rule r, _, .chain h d e => by
    have table := Rule.fits_of_production h
    simp only [Production.fits, decide_eq_true_eq] at table
    obtain ⟨avoids, joins, joins', next, takes, again⟩ := table
    refine ((fits_of_derives d).append (fits_of_derivesMany again e) next).mono ?_ ?_ ?_
    · rw [takes]
      exact avoids
    · exact List.append_subset.2 ⟨joins, joins'⟩
    · rw [takes]
      exact nofun
  | .rule r, _, .notAhead h => (Fits.nil _ _).mono (fun _ => id) (fun _ => id) fun _ =>
      Piece.nullable_of_production h rfl
  | .rule r, _, .family h d => by
    have statement := fits_of_derives d
    rcases h with rfl | rfl <;> exact statement.mono (by decide) (by decide) (by decide)

theorem fits_of_derivesAll : ∀ {ps : List Piece} {ks : List Token}, Piece.fit ps = true →
    DerivesAll ps ks → Fits (Piece.allAvoid ps) (Piece.allJoin ps) (ps.all Piece.nullable) ks
  | _, _, _, .nil => .nil _ _
  | p :: ps, _, hf, .cons d e => by
    simp only [Piece.fit, Bool.and_eq_true, List.all_eq_true, decide_eq_true_eq] at hf
    exact (fits_of_derives d).append (fits_of_derivesAll hf.2 e) fun c hc => hf.1 c hc

theorem fits_of_derivesMany : ∀ {ps : List Piece} {ks : List Token}, Piece.fitAgain ps = true →
    DerivesMany ps ks → Fits (Piece.allAvoid ps) (Piece.allJoin ps) true ks
  | _, _, _, .nil => .nil _ _
  | ps, _, hf, .cons d e => by
    have again := hf
    simp only [Piece.fitAgain, Bool.and_eq_true, List.all_eq_true, decide_eq_true_eq] at again
    have whole := (fits_of_derivesAll again.2 d).append (fits_of_derivesMany hf e)
      fun c hc => again.1 c hc
    refine whole.mono (fun c hc => ?_) ?_ fun _ => rfl
    · split
      · exact List.mem_filter.2 ⟨hc, decide_eq_true hc⟩
      · exact hc
    · exact List.append_subset.2 ⟨List.Subset.refl _, List.Subset.refl _⟩

end

/-- The neighbours in a document stay apart. -/
theorem isChain_apart_of_isDocument {ks : List Token} (h : IsDocument ks) :
    ks.IsChain Token.Apart := (fits_of_derives h).chain

end SolidScript
