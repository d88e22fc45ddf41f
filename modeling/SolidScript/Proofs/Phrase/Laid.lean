import SolidScript.Proofs.Lexical.Token
import SolidScript.Proofs.Matching.Induction

/-!
# Phrase — tokens laid out in a source

A match of the grammar lies over tokens that follow each other in the source.  `Expands` says how
the tokens of a rule are put together from those of the pieces of its production, and
`outcome_laid` reads every match so: what passes from the tokens of the pieces to those of the rule
holds of the tokens of every match.

Two terminals also match the front of a longer symbol, `=` that of `==` and `!` that of `!=`.
Neither leads to a match: no second `=` may follow the first, and no statement starts with one.
-/

namespace SolidScript

/-- The pieces of a production. -/
def Production.pieces : Production → List Piece
  | .sequence ps => ps
  | .choice ps   => ps
  | .maybe p     => [p]
  | .many p      => [p]
  | .chain p s   => p :: s.toList
  | .notAhead _  => []

/-- The token is a reference to a file. -/
def Token.IsReference (k : Token) : Prop := k.kind = .useFile ∨ k.kind = .includeFile

namespace Grammar
open Lexeme (isPlain)
open Token (reclassify)

/-! ### Tokens at places -/

/-- The token stands at the place, up to the other: the token there, references to files aside, or
a reference. -/
inductive At (here : Cursor) (k : Token) (next : Cursor) : Prop where
  | plain (h : tokenAt here = some (k, next))
  | reference (h : Token.next here = .token k next)
      (hk : k.kind = .useFile ∨ k.kind = .includeFile)

/-- A token that is a number has a value. -/
def Proper (k : Token) : Prop := k.kind = .number → ∃ v, Number.Numeral.value? k.text = some v

/-- The terminals that stand for the tokens that they match. -/
def isFaithful (t : Terminal) : Bool := isPlain t || t == .useFile || t == .includeFile

/-- The terminals that stand for what they match are the plain ones and those of references. -/
theorem isFaithful_cases {t : Terminal} (ht : isFaithful t = true) :
    isPlain t = true ∨ t = .useFile ∨ t = .includeFile := by
  simpa [isFaithful, or_assoc] using ht

/-- The token at a place is no reference. -/
theorem kind_of_tokenAt {here next : Cursor} {k : Token} (h : tokenAt here = some (k, next)) :
    k.kind ≠ .useFile ∧ k.kind ≠ .includeFile := by
  obtain ⟨⟨kind, u, r⟩, hu, he⟩ := Option.map_eq_some_iff.1 h
  cases he
  obtain ⟨⟨kind', v, s⟩, hv, he⟩ := Option.map_eq_some_iff.1 hu
  cases he
  obtain ⟨c, hc, hk, -⟩ := mem_of_longestAmong hv
  have plain : ∀ c ∈ Lexeme.plainClasses, c.1 ≠ .useFile ∧ c.1 ≠ .includeFile := by
    simp [Lexeme.plainClasses]
  have among := plain c hc
  rw [show c.1 = kind' from hk] at among
  exact ⟨fun he => among.1 (eq_of_reclassify he (by decide)),
    fun he => among.2 (eq_of_reclassify he (by decide))⟩

/-- No terminal that stands for anything else stands for a reference. -/
theorem kind_of_isPlain {t : Terminal} (ht : isPlain t = true) {k : Token} (h : t.Accepts k) :
    k.kind ≠ .useFile ∧ k.kind ≠ .includeFile := by
  rcases Lexeme.isPlain_cases ht with rfl | rfl | rfl | ⟨w, rfl⟩ | ⟨hs, -, -⟩
  · rw [show k.kind = .identifier from h]; simp
  · rw [show k.kind = .number from h]; simp
  · rw [show k.kind = .string from h]; simp
  · rw [h.1]; simp
  · rw [(Lexeme.symbol_of_accepts hs h).1]; simp

/-- What a lexer reads next is there. -/
theorem At.of_next {here next : Cursor} {k : Token} (h : Token.next here = .token k next) :
    At here k next := by
  by_cases hk : k.kind = .useFile ∨ k.kind = .includeFile
  · exact .reference h hk
  · rw [not_or] at hk
    exact .plain (tokenAt_of_next h hk.1 hk.2)

/-- A reference is the next token where it is. -/
theorem next_of_reference {here : Cursor} {w u r : Text} (hw : w ∈ Lexeme.referenceWords)
    (h : Lexeme.reference w (afterSkip here).rest = some (u, r)) :
    ∃ k : Token, Token.next here = .token k ⟨(afterSkip here).offset + u.length, r⟩ ∧
      k.IsReference ∧ k.start = (afterSkip here).offset ∧ k.text = u := by
  simp only [Lexeme.referenceWords, List.mem_cons, List.not_mem_nil, or_false] at hw
  rcases hw with rfl | rfl
  · exact ⟨_, next_eq_token_iff.2 ⟨_, _, _, longest_of_useFile h, rfl, rfl⟩, .inl rfl, rfl, rfl⟩
  · exact ⟨_, next_eq_token_iff.2 ⟨_, _, _, longest_of_includeFile h, rfl, rfl⟩, .inr rfl, rfl, rfl⟩

/-- The token is the next one, unless it is the word of a reference. -/
theorem At.next {here next : Cursor} {k : Token} (h : At here k next)
    (hk : k.kind = .identifier → k.text ∉ Lexeme.referenceWords) :
    Token.next here = .token k next := by
  cases h with
  | plain h => exact next_of_tokenAt h hk
  | reference h _ => exact h

/-- The token is a part of the text from its place on, and starts there. -/
theorem At.rest {here next : Cursor} {k : Token} (h : At here k next) :
    (afterSkip here).rest = k.text ++ next.rest ∧ k.text ≠ [] ∧
      k.start = (afterSkip here).offset ∧ next.offset = k.start + k.text.length := by
  cases h with
  | plain h => exact rest_of_tokenAt h
  | reference h _ => exact rest_of_next h

/-- A token takes a character. -/
theorem At.length_lt {here next : Cursor} {k : Token} (h : At here k next) :
    next.rest.length < here.rest.length := by
  cases h with
  | plain h => exact length_tokenAt_lt h
  | reference h _ => exact length_next_lt h

/-- A terminal matches the tokens that it stands for. -/
theorem At.terminal {t : Terminal} (ht : isFaithful t = true) {here next : Cursor} {k : Token}
    (h : At here k next) (ha : t.Accepts k) :
    Run.terminal t here = some ([.leaf t k.start k.text], next) := by
  rcases isFaithful_cases ht with hp | hr
  · cases h with
    | plain h => exact (terminal_eq_some_iff hp).2 ⟨k, h, ha, rfl⟩
    | reference _ hk =>
      have := kind_of_isPlain hp ha
      exact absurd hk (by simp [this])
  · cases h with
    | plain h =>
      have := kind_of_tokenAt h
      rcases hr with rfl | rfl
      · exact absurd ha this.1
      · exact absurd ha this.2
    | reference h _ => exact (reference_eq_some_iff hr).2 ⟨k, h, ha, rfl⟩

/-- What such a terminal matches is a token that it stands for. -/
theorem at_of_terminal {t : Terminal} (ht : isFaithful t = true) {here next : Cursor}
    {ts : List Tree} (h : Run.terminal t here = some (ts, next)) :
    ∃ k, At here k next ∧ t.Accepts k ∧ ts = [.leaf t k.start k.text] := by
  rcases isFaithful_cases ht with hp | hr
  · obtain ⟨k, hk, ha, rfl⟩ := (terminal_eq_some_iff hp).1 h
    exact ⟨k, .plain hk, ha, rfl⟩
  · obtain ⟨k, hk, ha, rfl⟩ := (reference_eq_some_iff hr).1 h
    exact ⟨k, .of_next hk, ha, rfl⟩

/-- A token that is there and is a number has a value. -/
theorem At.proper {here next : Cursor} {k : Token} (h : At here k next) : Proper k := by
  intro hk
  cases h with
  | reference _ hr => rw [hk] at hr; simp at hr
  | plain h =>
    obtain ⟨⟨kind, u, r⟩, hu, he⟩ := Option.map_eq_some_iff.1 h
    cases he
    obtain ⟨⟨kind', v, s⟩, hv, he⟩ := Option.map_eq_some_iff.1 hu
    cases he
    obtain rfl := eq_of_reclassify hk (by decide)
    obtain ⟨c, hc, hkind, hr⟩ := mem_of_longestAmong hv
    obtain rfl : c = (.number, Number.Numeral.reader) := by
      simp only [Lexeme.plainClasses, List.mem_cons, List.not_mem_nil, or_false] at hc
      rcases hc with rfl | rfl | rfl | rfl <;> first | rfl | cases hkind
    have reads : Number.Numeral.reader u = some (u, []) := Lexeme.reader_alone hr
    obtain ⟨n, hn⟩ := Option.isSome_iff_exists.1 (Number.Numeral.read?_isSome_iff.2 reads)
    exact ⟨n.value, by simp [Number.Numeral.value?, hn]⟩

/-- A name is no keyword. -/
theorem At.not_keyword {here next : Cursor} {k : Token} (h : At here k next) (hk : k.IsName) :
    Keyword.isKeyword k.text = false := by
  have hk : k.kind = .identifier := hk
  cases h with
  | reference _ hr => rw [hk] at hr; simp at hr
  | plain h =>
    obtain ⟨⟨kind, u, r⟩, hu, he⟩ := Option.map_eq_some_iff.1 h
    cases he
    obtain ⟨⟨kind', v, s⟩, -, he⟩ := Option.map_eq_some_iff.1 hu
    cases he
    obtain rfl := eq_of_reclassify hk (by decide)
    simpa [reclassify] using hk

/-- The tokens follow each other from the place on, up to the other. -/
inductive Laid : Cursor → List Token → Cursor → Prop where
  | nil (here : Cursor) : Laid here [] here
  | cons {here there next : Cursor} {k : Token} {ks : List Token} (h : At here k there)
      (hs : Laid there ks next) : Laid here (k :: ks) next

theorem laid_nil_iff {here next : Cursor} : Laid here [] next ↔ next = here := by
  constructor
  · rintro ⟨⟩; rfl
  · rintro rfl; exact .nil _

/-- Tokens lie there if the first does and the others lie behind it. -/
theorem laid_cons_iff {here next : Cursor} {k : Token} {ks : List Token} :
    Laid here (k :: ks) next ↔ ∃ there, At here k there ∧ Laid there ks next := by
  constructor
  · intro h
    cases h with
    | cons h hs => exact ⟨_, h, hs⟩
  · rintro ⟨there, h, hs⟩; exact .cons h hs

/-- Tokens lie in a row if the first ones do and the others lie behind them. -/
theorem laid_append_iff {here next : Cursor} {ks ls : List Token} :
    Laid here (ks ++ ls) next ↔ ∃ there, Laid here ks there ∧ Laid there ls next := by
  induction ks generalizing here with
  | nil => simp [laid_nil_iff]
  | cons k ks ih =>
    simp only [List.cons_append, laid_cons_iff, ih]
    constructor
    · rintro ⟨a, ha, b, hb, hl⟩; exact ⟨b, ⟨a, ha, hb⟩, hl⟩
    · rintro ⟨b, ⟨a, ha, hb⟩, hl⟩; exact ⟨a, ha, b, hb, hl⟩

theorem Laid.append {here there next : Cursor} {ks ls : List Token} (h : Laid here ks there)
    (k : Laid there ls next) : Laid here (ks ++ ls) next := laid_append_iff.2 ⟨there, h, k⟩

/-- Each of the tokens that lie there is somewhere. -/
theorem Laid.exists_at {here next : Cursor} {ks : List Token} (h : Laid here ks next) {k : Token}
    (hk : k ∈ ks) : ∃ there after, At there k after := by
  induction h with
  | nil => cases hk
  | cons h _ ih =>
    rcases List.mem_cons.1 hk with rfl | hk
    · exact ⟨_, _, h⟩
    · exact ih hk

/-! ### Productions over tokens -/

/-- What it is for a piece to leave these trees and to take these tokens. -/
abbrev Reading := Piece → List Tree → List Token → Prop

namespace Reading

/-- The pieces one after the other. -/
def InOrder (m : Reading) : List Piece → List Tree → List Token → Prop
  | [],      ts, ks => ts = [] ∧ ks = []
  | p :: ps, ts, ks =>
    ∃ us ls vs ms, m p us ls ∧ m.InOrder ps vs ms ∧ ts = us ++ vs ∧ ks = ls ++ ms

/-- The pieces again and again. -/
inductive Again (m : Reading) (ps : List Piece) : List Tree → List Token → Prop where
  | nil : Again m ps [] []
  | cons {ts us : List Tree} {ks ls : List Token} (h : m.InOrder ps ts ks)
      (k : Again m ps us ls) : Again m ps (ts ++ us) (ks ++ ls)

/-- The production. -/
def Expands (m : Reading) : Production → List Tree → List Token → Prop
  | .sequence ps, ts, ks => m.InOrder ps ts ks
  | .choice ps,   ts, ks => ∃ p ∈ ps, m p ts ks
  | .maybe p,     ts, ks => ts = [] ∧ ks = [] ∨ m p ts ks
  | .many p,      ts, ks => m.Again [p] ts ks
  | .chain p s,   ts, ks =>
    ∃ us ls vs ms, m p us ls ∧ m.Again (s.toList ++ [p]) vs ms ∧ ts = us ++ vs ∧ ks = ls ++ ms
  | .notAhead _,  ts, ks => ts = [] ∧ ks = []

/-- A terminal takes a token that it stands for, and a rule is read as `M` says. -/
def By (M : Rule → List Tree → List Token → Prop) : Reading
  | .term t, ts, ks =>
    ∃ k, Proper k ∧ t.Accepts k ∧ ts = [.leaf t k.start k.text] ∧ ks = [k]
  | .rule r, ts, ks => M r ts ks

end Reading

/-! ### Matches over tokens -/

section Laid
variable {M : Rule → List Tree → List Token → Prop}

/-- The match of a rule over tokens that are read as `M` says. -/
def Over (M : Rule → List Tree → List Token → Prop) (r : Rule) (here : Cursor) (ts : List Tree)
    (next : Cursor) : Prop :=
  r ≠ .document → ∃ ks, Laid here ks next ∧ M r ts ks

/-- The piece takes the tokens that it looks at. -/
def isOrdinary : Piece → Bool
  | .term t => isFaithful t
  | .rule r => r ≠ .document

/-- What a piece matches is a list of tokens that lie there, and its trees are read off them. -/
theorem laid_of_piece {p : Piece} (hp : isOrdinary p = true) {here next : Cursor}
    {ts : List Tree} (h : Match.Where (Over M) p here ts next) :
    ∃ ks, Laid here ks next ∧ Reading.By M p ts ks := by
  cases p with
  | term t =>
    obtain ⟨k, hk, ha, rfl⟩ := at_of_terminal hp h
    exact ⟨[k], .cons hk (.nil _), k, hk.proper, ha, rfl, rfl⟩
  | rule r => exact h.2 (by simpa [isOrdinary] using hp)

/-- What pieces match in order is a list of tokens that lie there. -/
theorem laid_of_inOrder :
    ∀ {ps : List Piece} {here next : Cursor} {ts : List Tree}, (∀ p ∈ ps, isOrdinary p = true) →
      (Match.Where (Over M)).InOrder ps here ts next →
      ∃ ks, Laid here ks next ∧ (Reading.By M).InOrder ps ts ks
  | [], _, _, _, _, h => by
      obtain ⟨rfl, rfl⟩ := h
      exact ⟨[], .nil _, rfl, rfl⟩
  | p :: ps, here, next, ts, hps, h => by
      obtain ⟨us, there, vs, hp, h, rfl⟩ := h
      obtain ⟨ls, hl, hm⟩ := laid_of_piece (hps p List.mem_cons_self) hp
      obtain ⟨ms, hl', hm'⟩ := laid_of_inOrder (fun q hq => hps q (List.mem_cons_of_mem _ hq)) h
      exact ⟨ls ++ ms, hl.append hl', us, ls, vs, ms, hm, hm', rfl, rfl⟩

/-- What a choice matches is a list of tokens that lie there. -/
theorem laid_of_first {ps : List Piece} {here next : Cursor} {ts : List Tree}
    (hps : ∀ p ∈ ps, isOrdinary p = true) (h : (Match.Where (Over M)).First ps here ts next) :
    ∃ ks, Laid here ks next ∧ ∃ p ∈ ps, Reading.By M p ts ks := by
  obtain ⟨p, hp, hm⟩ := h.exists_mem
  obtain ⟨ks, hl, hm⟩ := laid_of_piece (hps p hp) hm
  exact ⟨ks, hl, p, hp, hm⟩

/-- What a repetition matches is a list of tokens that lie there. -/
theorem laid_of_again {ps : List Piece} (hps : ∀ p ∈ ps, isOrdinary p = true)
    {here next : Cursor} {ts : List Tree} (h : (Match.Where (Over M)).Again ps here ts next) :
    ∃ ks, Laid here ks next ∧ (Reading.By M).Again ps ts ks := by
  induction h with
  | nil => exact ⟨[], .nil _, .nil⟩
  | cons h _ ih =>
    obtain ⟨ls, hl, hm⟩ := laid_of_inOrder hps h
    obtain ⟨ms, hl', hm'⟩ := ih
    exact ⟨ls ++ ms, hl.append hl', .cons hm hm'⟩

/-- What a production matches is a list of tokens that lie there, and its trees are read off
them. -/
theorem laid_of_expands {q : Production} (hq : ∀ p ∈ q.pieces, isOrdinary p = true)
    {here next : Cursor} {ts : List Tree} (h : (Match.Where (Over M)).Expands q here ts next) :
    ∃ ks, Laid here ks next ∧ (Reading.By M).Expands q ts ks := by
  cases q with
  | sequence ps => exact laid_of_inOrder hq h
  | choice ps => exact laid_of_first hq h
  | maybe p =>
    rcases h with ⟨rfl, rfl⟩ | h
    · exact ⟨[], .nil _, .inl ⟨rfl, rfl⟩⟩
    · obtain ⟨ks, hl, hm⟩ := laid_of_piece (hq p List.mem_cons_self) h
      exact ⟨ks, hl, .inr hm⟩
  | many p => exact laid_of_again hq h
  | chain p s =>
    obtain ⟨us, there, vs, hp, h, rfl⟩ := h
    obtain ⟨ls, hl, hm⟩ := laid_of_piece (hq p List.mem_cons_self) hp
    obtain ⟨ms, hl', hm'⟩ := laid_of_again (fun p' hp' => hq p' (by
      simp only [List.mem_append, List.mem_singleton] at hp'
      rcases hp' with hp' | rfl
      · exact List.mem_cons_of_mem _ hp'
      · exact List.mem_cons_self)) h
    exact ⟨ls ++ ms, hl.append hl', us, ls, vs, ms, hm, hm', rfl, rfl⟩
  | notAhead t =>
    obtain ⟨rfl, rfl, -⟩ := h
    exact ⟨[], .nil _, rfl, rfl⟩

end Laid

/-! ### Matches of rules -/

/-- The rules that do not take what they look at, or not all of it. -/
def special : List Rule := [.document, .assign, .closedModified, .openModified]

theorem isOrdinary_of_mem_pieces (r : Rule) (hr : r ∉ special) :
    ∀ p ∈ r.production.pieces, isOrdinary p = true := by
  revert hr
  cases r <;> decide

/-- A symbol of one character is a token where no longer one is. -/
theorem at_of_single {here : Cursor} {c : Char} {r : Text} (hr : (afterSkip here).rest = c :: r)
    (hc : c ∈ ['=', '*', '!', '#', '%']) (hp : c ∈ ['=', '!'] → r.head? ≠ some '=') :
    At here ⟨.symbol, [c], (afterSkip here).offset⟩ ⟨(afterSkip here).offset + 1, r⟩ := by
  have noPair : ∀ d s, r = d :: s → [c, d] ∉ Lexeme.pairs := by
    rintro d s rfl hm
    have second : ∀ w ∈ Lexeme.pairs, w.head? = some c → c ∈ ['=', '!'] ∧ w = [c, '='] := by
      simp only [List.mem_cons, List.not_mem_nil, or_false] at hc
      rcases hc with rfl | rfl | rfl | rfl | rfl <;> decide
    obtain ⟨hce, hw⟩ := second _ hm rfl
    exact hp hce (by rw [(List.cons.inj (List.cons.inj hw).2).1]; rfl)
  have classes : Text.isDigit c = false ∧ Lexeme.startsName c = false ∧ c ≠ '"' ∧ c ≠ '.' ∧
      [c] ∈ Lexeme.symbols := by
    simp only [List.mem_cons, List.not_mem_nil, or_false] at hc
    rcases hc with rfl | rfl | rfl | rfl | rfl <;> decide
  obtain ⟨hd, hs, hq, hne, hm⟩ := classes
  refine .plain ?_
  rw [tokenAt, hr, Lexeme.front_of_other hd hs hq fun h => absurd h hne,
    Lexeme.symbol_of_single noPair, if_pos hm]
  rfl

/-- The terminal for a mark matches its character. -/
theorem terminal_mark_eq_some_iff {m : Mark} {here there : Cursor} {ts : List Tree} :
    Run.terminal (.mark m) here = some (ts, there) ↔
      ∃ r, (afterSkip here).rest = m.char :: r ∧
        ts = [.leaf (.mark m) (afterSkip here).offset [m.char]] ∧
        there = ⟨(afterSkip here).offset + 1, r⟩ := by
  unfold Run.terminal Cursor.read
  constructor
  · intro h
    obtain ⟨⟨u, next⟩, hu, he⟩ := Option.map_eq_some_iff.1 h
    cases he
    obtain ⟨⟨v, r⟩, hv, he⟩ := Option.map_eq_some_iff.1 hu
    cases he
    obtain ⟨rfl, hr⟩ := Reader.word_eq_some_iff.1 hv
    exact ⟨r, hr, rfl, rfl⟩
  · rintro ⟨r, hr, rfl, rfl⟩
    have word : Reader.word [m.char] (m.char :: r) = some ([m.char], r) :=
      Reader.word_eq_some_iff.2 ⟨rfl, rfl⟩
    rw [hr, show (Terminal.mark m).reader = Reader.word [m.char] from rfl, word]
    rfl

/-- A mark `=` that none follows is a token. -/
theorem at_of_assign {here there : Cursor} {ts : List Tree}
    (h : Run.terminal (.mark .assign) here = some (ts, there))
    (hn : Run.terminal (.mark .assign) there = none) :
    ∃ k, At here k there ∧ k.IsMark .assign ∧ ts = [.leaf (.mark .assign) k.start k.text] := by
  obtain ⟨r, hr, rfl, rfl⟩ := terminal_mark_eq_some_iff.1 h
  refine ⟨_, at_of_single hr (by decide) fun _ hh => ?_, ⟨rfl, rfl⟩, rfl⟩
  obtain ⟨s, rfl⟩ := List.head?_eq_some_iff.1 hh
  have stays : afterSkip ⟨(afterSkip here).offset + 1, '=' :: s⟩ =
      ⟨(afterSkip here).offset + 1, '=' :: s⟩ :=
    afterSkip_of_gapPiece (gapPiece_of_head (by decide) (by decide))
  have second := (terminal_mark_eq_some_iff (m := .assign)).2 ⟨s, by rw [stays]; rfl, rfl, rfl⟩
  rw [hn] at second
  cases second

/-- A token at a `=` is a symbol. -/
theorem At.kind_of_equals {here next : Cursor} {k : Token} (h : At here k next) {r : Text}
    (hr : (afterSkip here).rest = '=' :: r) : k.kind = .symbol := by
  cases h with
  | plain h =>
    rw [tokenAt, hr, Lexeme.front_of_other (by decide) (by decide) (by decide)
      fun h => absurd h (by decide)] at h
    obtain ⟨⟨kind, u, s⟩, hu, he⟩ := Option.map_eq_some_iff.1 h
    cases he
    obtain ⟨⟨v, t⟩, -, he⟩ := Option.map_eq_some_iff.1 hu
    cases he
    rfl
  | reference h hk =>
    exfalso
    rcases hk with hk | hk
    · have hm := (reference_eq_some_iff (.inl rfl)).2 ⟨k, h, hk, rfl⟩
      have none : Lexeme.useFile ('=' :: r) = none := rfl
      simp [Run.terminal, Cursor.read, hr, Terminal.reader, none] at hm
    · have hm := (reference_eq_some_iff (.inr rfl)).2 ⟨k, h, hk, rfl⟩
      have none : Lexeme.includeFile ('=' :: r) = none := rfl
      simp [Run.terminal, Cursor.read, hr, Terminal.reader, none] at hm

/-- The terminal for modifiers matches one character. -/
theorem terminal_modifier_eq_some_iff {here there : Cursor} {ts : List Tree} :
    Run.terminal .modifier here = some (ts, there) ↔
      ∃ c r, c ∈ ['*', '!', '#', '%'] ∧ (afterSkip here).rest = c :: r ∧
        ts = [.leaf .modifier (afterSkip here).offset [c]] ∧
        there = ⟨(afterSkip here).offset + 1, r⟩ := by
  unfold Run.terminal Cursor.read
  cases hx : (afterSkip here).rest with
  | nil => simp [Terminal.reader, Terminal.oneOf, Reader.one]
  | cons c x =>
    rw [show Terminal.reader .modifier (c :: x) = _ from Lexeme.oneOf_cons _ _ _]
    by_cases hc : c ∈ ['*', '!', '#', '%']
    · rw [if_pos hc]
      constructor
      · rintro ⟨⟩
        exact ⟨c, x, hc, rfl, rfl, rfl⟩
      · rintro ⟨d, r, -, he, rfl, rfl⟩
        cases he
        rfl
    · rw [if_neg hc]
      simp only [Option.map_none, reduceCtorEq, false_iff]
      rintro ⟨d, r, hd, he, -⟩
      cases he
      exact hc hd

/-- What the terminal for modifiers matches is a token, or the front of `!=`. -/
theorem at_of_modifier {here there : Cursor} {ts : List Tree}
    (h : Run.terminal .modifier here = some (ts, there)) :
    (∃ k, At here k there ∧ Terminal.modifier.Accepts k ∧
      ts = [.leaf .modifier k.start k.text]) ∨ there.rest.head? = some '=' := by
  obtain ⟨c, r, hc, hr, rfl, rfl⟩ := terminal_modifier_eq_some_iff.1 h
  by_cases hh : r.head? = some '='
  · exact .inr hh
  · refine .inl ⟨_, at_of_single hr (List.mem_cons_of_mem _ hc) fun _ => hh, ⟨rfl, ?_⟩, rfl⟩
    simpa using hc

/-- A token right at a `=` is a symbol that starts with it. -/
theorem At.head_of_equals {here next : Cursor} {k : Token} (h : At here k next)
    (hh : here.rest.head? = some '=') : k.kind = .symbol ∧ k.text.head? = some '=' := by
  obtain ⟨o, r⟩ := here
  obtain ⟨s, rfl⟩ := List.head?_eq_some_iff.1 hh
  have stays : afterSkip ⟨o, '=' :: s⟩ = ⟨o, '=' :: s⟩ :=
    afterSkip_of_gapPiece (gapPiece_of_head (by decide) (by decide))
  obtain ⟨whole, hn, -, -⟩ := h.rest
  rw [stays] at whole
  obtain ⟨c, u, text⟩ := List.exists_cons_of_ne_nil hn
  rw [text] at whole ⊢
  exact ⟨h.kind_of_equals (by rw [stays]), by rw [(List.cons.inj whole).1]; rfl⟩

section Steps
variable {M : Rule → List Tree → List Token → Prop}
  (step : ∀ (r : Rule) (ts : List Tree) (ks : List Token),
    (Reading.By M).Expands r.production ts ks → M r (Tree.gather r ts) ks)
  (starts : ∀ (r : Rule) (ts : List Tree) (ks : List Token),
    r = .closedStatement ∨ r = .openStatement → M r ts ks →
      ∃ k ls, ks = k :: ls ∧ (k.kind = .symbol → k.text.head? ≠ some '='))
  {here next : Cursor} {ts : List Tree}
include step

/-- A mark `=` with no other behind it is a token. -/
theorem laid_of_assign
    (h : (Match.Where (Over M)).InOrder [.mark .assign, .rule .notAssign] here ts next) :
    ∃ ks, Laid here ks next ∧ M .assign (Tree.gather .assign ts) ks := by
  obtain ⟨us, there, vs, ha, ⟨ws, last, xs, ⟨hw, -⟩, ⟨rfl, rfl⟩, rfl⟩, rfl⟩ := h
  rw [outcome_rule] at hw
  obtain ⟨⟨ys, m⟩, hy, he⟩ := Option.map_eq_some_iff.1 hw
  cases he
  simp only [Run.expand, Rule.production] at hy
  split at hy
  · cases hy
  · rename_i hn
    cases hy
    obtain ⟨k, hk, hm, rfl⟩ := at_of_assign ha (Option.not_isSome_iff_eq_none.1 hn)
    exact ⟨[k], .cons hk (.nil _), step .assign _ _
      ⟨_, [k], [], [], ⟨k, hk.proper, hm, rfl, rfl⟩,
        ⟨[], [], [], [], step .notAssign [] [] ⟨rfl, rfl⟩, ⟨rfl, rfl⟩, rfl, rfl⟩, rfl, rfl⟩⟩

include starts

/-- A modifier before a statement is a token. -/
theorem laid_of_modified {r c : Rule} (hc : c = .closedStatement ∨ c = .openStatement)
    (hr : r.production = .sequence [.term .modifier, .rule c])
    (h : (Match.Where (Over M)).InOrder [.term .modifier, .rule c] here ts next) :
    ∃ ks, Laid here ks next ∧ M r (Tree.gather r ts) ks := by
  obtain ⟨us, there, vs, hm, ⟨ws, last, xs, ⟨-, hw⟩, ⟨rfl, rfl⟩, rfl⟩, rfl⟩ := h
  obtain ⟨ls, hl, hw⟩ := hw (by rcases hc with rfl | rfl <;> decide)
  rcases at_of_modifier hm with ⟨k, hk, ha, rfl⟩ | hh
  · refine ⟨k :: ls, .cons hk hl, step r _ _ ?_⟩
    rw [hr]
    exact ⟨_, [k], ws ++ [], ls, ⟨k, hk.proper, ha, rfl, rfl⟩,
      ⟨ws, ls, [], [], hw, ⟨rfl, rfl⟩, rfl, by simp⟩, rfl, rfl⟩
  · -- the symbol `!=`: what follows its first character would be a statement that starts with `=`
    obtain ⟨k, ls, rfl, hne⟩ := starts c ws ls hc hw
    obtain ⟨m, hk, -⟩ := laid_cons_iff.1 hl
    obtain ⟨symbol, head⟩ := hk.head_of_equals hh
    exact absurd head (hne symbol)

/-- What passes from the tokens of the pieces of every production to those of its rule holds of the
tokens of every match, if no statement starts with `=`. -/
theorem outcome_laid {r : Rule} (hr : r ≠ .document) (h : outcome (.rule r) here = some (ts, next)) :
    ∃ ks, Laid here ks next ∧ M r ts ks := by
  refine outcome_induction (P := Over M) (fun r here ts next h hr => ?_) h hr
  by_cases hs : r ∈ special
  · simp only [special, List.mem_cons, List.not_mem_nil, or_false] at hs
    rcases hs with rfl | rfl | rfl | rfl
    · exact absurd rfl hr
    · exact laid_of_assign step h
    · exact laid_of_modified step starts (.inl rfl) rfl h
    · exact laid_of_modified step starts (.inr rfl) rfl h
  · obtain ⟨ks, hl, hm⟩ := laid_of_expands (isOrdinary_of_mem_pieces r hs) h
    exact ⟨ks, hl, step r ts ks hm⟩

end Steps

end Grammar

end SolidScript
