import SolidScript.Grammar.Derivation
import SolidScript.Proofs.Lexical.Numeral

/-!
# Lexical — the token at the front of a text

References to files aside, the token at the front of a text is the longest of a numeral, a name, a
string and a symbol.  Every terminal reads it exactly if it stands for it (`reader_eq_front`), with
two exceptions: the mark `=` and the modifier `!` are also read off the symbols `==` and `!=`.
-/

namespace SolidScript.Lexeme
open Number.Numeral (digits exponentPart isExponentMark isSign pointed pointFirst)
open Terminal (anyKeyword identifierReader keywordReader numberAhead numberReader oneOf)
open Token (Found longer longestAmong reclassify)
open Reader
open Text (isDigit isWord)

/-- The classes of tokens, references to files aside. -/
def plainClasses : List (TokenKind × Reader) :=
  [(.number, Number.Numeral.reader), (.identifier, name), (.string, string), (.symbol, symbol)]

/-- The class of the token at the front of a text, references to files aside, its lexeme, and what
follows it. -/
def front (t : Text) : Option Found :=
  (longestAmong plainClasses t).map fun (kind, u, r) => (reclassify kind u, u, r)

/-- What a terminal reads of the token found: all of it, if it stands for it. -/
def taken (t : Terminal) (found : Found) : Option (Text × Text) :=
  if t.Accepts ⟨found.1, found.2.1, 0⟩ then some found.2 else none

/-- The terminals that stand for symbols. -/
def isSymbolic : Terminal → Bool
  | .mark _ | .period | .logical | .comparison | .additive | .multiplicative | .unary
  | .modifier => true
  | _ => false

/-! ### Nothing but a symbol -/

theorem word_singleton (a c : Char) (x : Text) :
    word [a] (c :: x) = if a = c then some ([c], x) else none := by
  by_cases h : a = c
  · subst h; simp [word]
  · simp [word, h]

/-- No numeral starts with a character that is no digit, nor with a point that none follows. -/
theorem numeral_of_other {c : Char} {x : Text} (hd : isDigit c = false)
    (hp : c = '.' → stops isDigit x = true) :
    Number.Numeral.reader (c :: x) = none ∧ numberReader (c :: x) = none := by
  have run : some1 isDigit (c :: x) = none := some1_of_stops (by simp [stops, hd])
  have run' : digits (c :: x) = none := run
  have first : pointFirst (c :: x) = none := by
    by_cases hc : c = '.'
    · have rest : digits x = none := some1_of_stops (hp hc)
      simp [pointFirst, andThen, word_singleton, hc, rest]
    · simp [pointFirst, andThen, word_singleton, Ne.symm hc]
  have point : pointed (c :: x) = none := by simp [pointed, andThen, run']
  constructor
  · simp [Number.Numeral.reader, andThen, orElse, point, first, run']
  · simp [numberReader, Terminal.pointNumber, Terminal.signedExponent, Terminal.plainNumber,
      notBefore, andThen, orElse, point, first, run]

/-- No number is ahead where no digit is. -/
theorem numberAhead_of_other {c : Char} {x : Text} (hd : isDigit c = false) :
    numberAhead (c :: x) = none := by
  have run : some1 isDigit (c :: x) = none := some1_of_stops (by simp [stops, hd])
  simp [numberAhead, andThen, run]

/-- Only a quote starts a string. -/
theorem string_of_other {c : Char} {x : Text} (h : c ≠ '"') : string (c :: x) = none := by
  simp [string, andThen, word, h.symm]

/-- Where nothing else can be read, the token at the front is the symbol there. -/
theorem front_of_symbol {t : Text} (number : Number.Numeral.reader t = none)
    (name : name t = none) (string : string t = none) :
    front t = (symbol t).map fun (u, r) => (.symbol, u, r) := by
  simp only [front, longestAmong, plainClasses, List.foldl_cons, List.foldl_nil, longer, number,
    name, string]
  cases symbol t <;> simp [reclassify]

/-! ### Symbols -/

theorem oneOf_cons (cs : List Char) (c : Char) (x : Text) :
    oneOf cs (c :: x) = if c ∈ cs then some ([c], x) else none := by
  simp [oneOf, one]

/-- Where none that is longer can be read, only the character itself can. -/
theorem firstOf_words_of_single {c : Char} {x : Text} :
    ∀ {ws : List Text}, (∀ w ∈ ws, (∃ a, w = [a]) ∨ w ≠ [c] ∧ word w (c :: x) = none) →
      firstOf (ws.map word) (c :: x) = if [c] ∈ ws then some ([c], x) else none
  | [], _ => rfl
  | w :: ws, h => by
      have others := firstOf_words_of_single (x := x) fun v hv => h v (List.mem_cons_of_mem _ hv)
      rw [List.map_cons, firstOf, orElse, others]
      rcases h w List.mem_cons_self with ⟨a, rfl⟩ | ⟨hw, hn⟩
      · rw [word_singleton]
        by_cases ha : a = c
        · simp [ha]
        · simp [ha, Ne.symm ha]
      · simp [hn, hw.symm]

/-- The texts of two characters among the symbols. -/
def pairs : List Text :=
  [['=', '='], ['!', '='], ['<', '='], ['>', '='], ['&', '&'], ['|', '|']]

/-- Symbols have one character, or are among the pairs. -/
theorem length_of_mem_symbols : ∀ w ∈ symbols, w.length = 1 ∨ w ∈ pairs := by decide

theorem length_of_mem_pairs : ∀ w ∈ pairs, w.length = 2 := by decide

section NoPair
variable {c : Char} {x : Text} (h : ∀ d s, x = d :: s → [c, d] ∉ pairs)
include h

/-- Where no pair is, none of the pairs can be read. -/
theorem word_of_pair {w : Text} (hw : w ∈ pairs) : w ≠ [c] ∧ word w (c :: x) = none := by
  obtain ⟨a, b, rfl⟩ : ∃ a b, w = [a, b] :=
    match w, length_of_mem_pairs w hw with
    | [a, b], _ => ⟨a, b, rfl⟩
  refine ⟨by simp, ?_⟩
  cases hx : word [a, b] (c :: x) with
  | none => rfl
  | some o =>
    obtain ⟨-, he⟩ := word_eq_some_iff.1 hx
    obtain ⟨rfl, rfl⟩ := List.cons.inj he
    exact absurd hw (h b o.2 rfl)

/-- Where no pair is, the symbol is the character itself, if it is one. -/
theorem symbol_of_single : symbol (c :: x) = if [c] ∈ symbols then some ([c], x) else none :=
  firstOf_words_of_single fun w hw =>
    (length_of_mem_symbols w hw).imp List.length_eq_one_iff.1 (word_of_pair h)

/-- A terminal for symbols reads the symbol that it stands for. -/
theorem reader_of_single {t : Terminal} (ht : isSymbolic t = true)
    (hp : t = .period → c = '.' → stops isDigit x = true) :
    t.reader (c :: x) = if t.Accepts ⟨.symbol, [c], 0⟩ then some ([c], x) else none := by
  cases t with
  | mark m => simp [Terminal.reader, Terminal.Accepts, word_singleton, eq_comm]
  | period =>
    by_cases hc : c = '.'
    · simp [Terminal.reader, Terminal.Accepts, notBefore, word_singleton, hc, hp rfl hc]
    · simp [Terminal.reader, Terminal.Accepts, notBefore, word_singleton, hc, Ne.symm hc]
  | logical =>
    have h1 := (word_of_pair h (w := ['|', '|']) (by decide)).2
    have h2 := (word_of_pair h (w := ['&', '&']) (by decide)).2
    simp [Terminal.reader, Terminal.Accepts, orElse, h1, h2]
  | comparison =>
    have split : ∀ w ∈ [['<', '='], ['>', '='], ['=', '='], ['!', '='], ['<'], ['>']],
        w.length = 1 ∨ w ∈ pairs := by decide
    exact (firstOf_words_of_single fun w hw =>
      (split w hw).imp List.length_eq_one_iff.1 (word_of_pair h)).trans
        (by simp [Terminal.Accepts])
  | additive | multiplicative | modifier => simp [Terminal.reader, Terminal.Accepts, oneOf_cons]
  | unary =>
    have hb : c = '!' → stops (· == '=') x = true := by
      rintro rfl
      refine stops_iff.2 fun d s he => ?_
      have := h d s he
      simpa [pairs] using this
    by_cases hc : c = '!'
    · simp [Terminal.reader, Terminal.Accepts, Terminal.unaryReader, oneOf_cons, notBefore, orElse,
        word_singleton, hc, hb hc]
    · have sign : (c = '-' ∨ c = '+' ∨ c = '!') ↔ (c = '-' ∨ c = '+') := by simp [hc]
      by_cases hm : c = '-' ∨ c = '+' <;>
        simp only [Terminal.reader, Terminal.Accepts, Terminal.unaryReader, oneOf_cons, notBefore,
          orElse, word_singleton, Ne.symm hc, List.mem_cons, List.cons.injEq, and_true, true_and,
          List.not_mem_nil, or_false, sign, hm, if_true, if_false]
  | _ => cases ht

end NoPair

/-- The first symbols of the list are those of two characters. -/
theorem symbol_of_pair {c d : Char} (x : Text) (h : [c, d] ∈ pairs) :
    symbol (c :: d :: x) = some ([c, d], x) := by
  simp only [pairs, List.mem_cons, List.cons.injEq, and_true, List.not_mem_nil, or_false] at h
  rcases h with ⟨rfl, rfl⟩ | ⟨rfl, rfl⟩ | ⟨rfl, rfl⟩ | ⟨rfl, rfl⟩ | ⟨rfl, rfl⟩ | ⟨rfl, rfl⟩ <;> rfl

/-- A terminal for symbols reads the pair that it stands for, the modifier `!` and the mark `=`
aside. -/
theorem reader_of_pair {c d : Char} (x : Text) (h : [c, d] ∈ pairs) {t : Terminal}
    (ht : isSymbolic t = true) (hm : t ≠ .modifier) (ha : t ≠ .mark .assign) :
    t.reader (c :: d :: x) =
      if t.Accepts ⟨.symbol, [c, d], 0⟩ then some ([c, d], x) else none := by
  simp only [pairs, List.mem_cons, List.cons.injEq, and_true, List.not_mem_nil, or_false] at h
  cases t with
  | mark m =>
    have hc : m.char ≠ c := by
      rcases h with ⟨rfl, rfl⟩ | ⟨rfl, rfl⟩ | ⟨rfl, rfl⟩ | ⟨rfl, rfl⟩ | ⟨rfl, rfl⟩ | ⟨rfl, rfl⟩ <;>
        revert ha <;> cases m <;> decide
    simp [Terminal.reader, Terminal.Accepts, word_singleton, hc]
  | modifier => exact absurd rfl hm
  | period | logical | comparison | additive | multiplicative | unary =>
    rcases h with ⟨rfl, rfl⟩ | ⟨rfl, rfl⟩ | ⟨rfl, rfl⟩ | ⟨rfl, rfl⟩ | ⟨rfl, rfl⟩ | ⟨rfl, rfl⟩ <;>
      simp [Terminal.reader, Terminal.Accepts, Terminal.unaryReader, oneOf_cons, notBefore, orElse,
        word, firstOf, stops]
  | _ => cases ht

/-- What stands for a symbol stands for nothing else. -/
theorem symbol_of_accepts {t : Terminal} (ht : isSymbolic t = true) {k : Token}
    (h : t.Accepts k) : k.kind = .symbol ∧ k.text ∈ symbols := by
  have among (ws : List Text) (hws : ∀ w ∈ ws, w ∈ symbols) (hw : k.text ∈ ws) :
      k.text ∈ symbols := hws _ hw
  cases t with
  | mark m =>
    obtain ⟨hk, hu⟩ := h
    refine ⟨hk, ?_⟩
    rw [hu]
    cases m <;> decide
  | period => exact ⟨h.1, by rw [h.2]; decide⟩
  | logical | comparison | additive | multiplicative | unary | modifier =>
    exact ⟨h.1, among _ (by decide) h.2⟩
  | _ => cases ht

section NoSymbol
variable {c : Char} {x : Text} (hc : ∀ w ∈ symbols, w.head? ≠ some c)
include hc

theorem not_mem_pairs_of_no_symbol : ∀ d s, x = d :: s → [c, d] ∉ pairs := fun _ _ _ hm =>
  hc _ ((by decide : ∀ w ∈ pairs, w ∈ symbols) _ hm) rfl

/-- Where no symbol starts with the character, none is read. -/
theorem symbol_of_no_symbol : symbol (c :: x) = none := by
  rw [symbol_of_single (not_mem_pairs_of_no_symbol hc), if_neg fun hm => hc _ hm rfl]

/-- The terminals that stand for symbols read nothing where no symbol is. -/
theorem reader_of_no_symbol {t : Terminal} (ht : isSymbolic t = true) : t.reader (c :: x) = none := by
  have hp : t = .period → c = '.' → stops isDigit x = true := by
    rintro - rfl
    exact absurd rfl (hc ['.'] (by decide))
  rw [reader_of_single (not_mem_pairs_of_no_symbol hc) ht hp,
    if_neg fun h => hc _ (symbol_of_accepts ht h).2 rfl]

end NoSymbol

/-- No symbol starts with a character that names start with. -/
theorem head_of_symbol_of_startsName {c : Char} (h : startsName c = true) :
    ∀ w ∈ symbols, w.head? ≠ some c := by
  have names : ∀ w ∈ symbols, w.head?.all startsName = false := by decide
  intro w hw he
  have := names w hw
  rw [he, Option.all_some, h] at this
  cases this

/-- Only one terminal stands for the point. -/
theorem eq_period_of_accepts {t : Terminal} (ht : isSymbolic t = true)
    (h : t.Accepts ⟨.symbol, ['.'], 0⟩) : t = .period := by
  cases t with
  | mark m =>
    have hm : ['.'] = [m.char] := h.2
    cases m <;> simp [Mark.char] at hm
  | period => rfl
  | logical | comparison | additive | multiplicative | unary | modifier =>
    simp [Terminal.Accepts] at h
  | _ => cases ht

/-- The token at the front is the symbol there, unless the character starts a numeral, a name or a
string. -/
theorem front_of_other {c : Char} {x : Text} (hd : isDigit c = false)
    (hs : startsName c = false) (hq : c ≠ '"') (hp : c = '.' → stops isDigit x = true) :
    front (c :: x) = (symbol (c :: x)).map fun (u, r) => (.symbol, u, r) :=
  front_of_symbol (numeral_of_other hd hp).1 (name_of_not_startsName (by simp [stops, hs]))
    (string_of_other hq)

/-! ### Every terminal -/

/-- The terminals that read what they stand for wherever it is the token. -/
def isPlain : Terminal → Bool
  | .identifier | .number | .string | .keyword _ => true
  | .mark m   => m ≠ .assign
  | .modifier => false
  | t         => isSymbolic t

/-- A terminal of words or a terminal of symbols. -/
theorem isPlain_cases {t : Terminal} (ht : isPlain t = true) :
    t = .identifier ∨ t = .number ∨ t = .string ∨ (∃ k, t = .keyword k) ∨
      isSymbolic t = true ∧ t ≠ .modifier ∧ t ≠ .mark .assign := by
  cases t with
  | mark m => simpa [isPlain, isSymbolic] using ht
  | _ => simp_all [isPlain, isSymbolic]

section Cases
variable {t : Terminal} (ht : isPlain t = true)
include ht

/-- Where the token is a number, each terminal reads the token that it stands for. -/
theorem reader_of_number {x u r : Text} (token : front x = some (.number, u, r))
    (number : numberReader x = some (u, r)) (identifier : identifierReader x = none)
    (string : string x = none) (keyword : ∀ k, keywordReader k x = none)
    (symbolic : isSymbolic t = true → t ≠ .modifier → t ≠ .mark .assign → t.reader x = none) :
    t.reader x = (front x).bind (taken t) := by
  rw [token, Option.bind_some, taken]
  rcases isPlain_cases ht with rfl | rfl | rfl | ⟨k, rfl⟩ | ⟨hs, hm, ha⟩
  · simpa [Terminal.reader, Terminal.Accepts] using identifier
  · simpa [Terminal.reader, Terminal.Accepts] using number
  · simpa [Terminal.reader, Terminal.Accepts] using string
  · simpa [Terminal.reader, Terminal.Accepts] using keyword k
  · rw [symbolic hs hm ha, if_neg fun h => absurd (symbol_of_accepts hs h).1 (by simp)]

/-- Where the token is a name or a keyword, each terminal reads the token that it stands for. -/
theorem reader_of_name {x u r : Text} (token : front x = some (reclassify .identifier u, u, r))
    (number : numberReader x = none) (identifier : name x = some (u, r))
    (ahead : numberAhead x = none) (string : string x = none)
    (symbolic : isSymbolic t = true → t.reader x = none) :
    t.reader x = (front x).bind (taken t) := by
  rw [token, Option.bind_some, taken]
  rcases isPlain_cases ht with rfl | rfl | rfl | ⟨k, rfl⟩ | ⟨hs, hm, ha⟩
  · rw [Terminal.reader, identifierReader_of_name identifier ahead]
    cases hk : Keyword.isKeyword u <;> simp [Terminal.Accepts, reclassify, hk]
  · rw [Terminal.reader, number]
    cases hk : Keyword.isKeyword u <;> simp [Terminal.Accepts, reclassify, hk]
  · rw [Terminal.reader, string]
    cases hk : Keyword.isKeyword u <;> simp [Terminal.Accepts, reclassify, hk]
  · rw [Terminal.reader, keywordReader_of_name identifier]
    by_cases hu : u = k.spelling
    · have hk : Keyword.isKeyword k.spelling = true := Keyword.isKeyword_iff.2 ⟨k, rfl⟩
      simp [Terminal.Accepts, reclassify, hk, hu]
    · simp [Terminal.Accepts, hu]
  · rw [symbolic hs, if_neg]
    intro h
    have := (symbol_of_accepts hs h).1
    cases hk : Keyword.isKeyword u <;> simp [reclassify, hk] at this

/-- Where only a string can be, each terminal reads the token that it stands for. -/
theorem reader_of_string {x : Text} (token : front x = (string x).map fun o => (.string, o))
    (number : numberReader x = none) (name : name x = none)
    (symbolic : isSymbolic t = true → t.reader x = none) :
    t.reader x = (front x).bind (taken t) := by
  rw [token]
  rcases isPlain_cases ht with rfl | rfl | rfl | ⟨k, rfl⟩ | ⟨hs, -, -⟩
  · rw [Terminal.reader, identifierReader_of_no_name name]
    cases string x <;> simp [taken, Terminal.Accepts]
  · rw [Terminal.reader, number]
    cases string x <;> simp [taken, Terminal.Accepts]
  · rw [Terminal.reader]
    cases string x <;> simp [taken, Terminal.Accepts]
  · rw [Terminal.reader, keywordReader_of_no_name name]
    cases string x <;> simp [taken, Terminal.Accepts]
  · rw [symbolic hs]
    cases string x with
    | none => rfl
    | some o =>
      rw [Option.map_some, Option.bind_some, taken,
        if_neg fun h => absurd (symbol_of_accepts hs h).1 (by simp)]

/-- Where only a symbol can be, each terminal reads the token that it stands for. -/
theorem reader_of_symbol {x : Text} (token : front x = (symbol x).map fun o => (.symbol, o))
    (number : numberReader x = none) (name : name x = none) (string : string x = none)
    (symbolic : isSymbolic t = true → t ≠ .modifier → t ≠ .mark .assign →
      t.reader x = (symbol x).bind fun o => taken t (.symbol, o)) :
    t.reader x = (front x).bind (taken t) := by
  rw [token]
  rcases isPlain_cases ht with rfl | rfl | rfl | ⟨k, rfl⟩ | ⟨hs, hm, ha⟩
  · rw [Terminal.reader, identifierReader_of_no_name name]
    cases symbol x <;> simp [taken, Terminal.Accepts]
  · rw [Terminal.reader, number]
    cases symbol x <;> simp [taken, Terminal.Accepts]
  · rw [Terminal.reader, string]
    cases symbol x <;> simp [taken, Terminal.Accepts]
  · rw [Terminal.reader, keywordReader_of_no_name name]
    cases symbol x <;> simp [taken, Terminal.Accepts]
  · rw [symbolic hs hm ha]
    cases symbol x <;> rfl

/-- At a digit, each terminal reads the token that it stands for. -/
theorem reader_eq_front_of_digit {c : Char} {x : Text} (hc : isDigit c = true) :
    t.reader (c :: x) = (front (c :: x)).bind (taken t) := by
  have noSymbol := head_of_symbol_of_startsName (startsName_of_isDigit hc)
  have symbol := symbol_of_no_symbol (x := x) noSymbol
  have symbolic (hs : isSymbolic t = true) := reader_of_no_symbol (x := x) noSymbol hs
  have string : string (c :: x) = none := string_of_other (by rintro rfl; revert hc; decide)
  rcases number_or_name hc (t := x) with ⟨u, s, v, m, hu, hr, ha, hv, hl⟩ |
    ⟨u, s, v, m, hu, hr, ha, hv, hl⟩
  · have token : front (c :: x) = some (.number, u, s) := by
      simp [front, longestAmong, plainClasses, longer, hu, hv, string, symbol, reclassify,
        Nat.not_lt.2 hl]
    refine reader_of_number ht token hr (identifierReader_of_numberAhead ha) string (fun k => ?_)
      fun hs _ _ => symbolic hs
    rw [keywordReader_of_name hv, if_neg]
    rintro rfl
    have := isKeyword_of_isDigit hc (head_of_name hv)
    rw [Keyword.isKeyword_iff.2 ⟨k, rfl⟩] at this
    cases this
  · have token : front (c :: x) = some (reclassify .identifier v, v, m) := by
      simp [front, longestAmong, plainClasses, longer, hu, hv, string, symbol, hl]
    exact reader_of_name ht token hr hv ha string symbolic

/-- At the start of a name, each terminal reads the token that it stands for. -/
theorem reader_eq_front_of_name {c : Char} {x : Text} (hd : isDigit c = false)
    (hc : startsName c = true) : t.reader (c :: x) = (front (c :: x)).bind (taken t) := by
  have noSymbol := head_of_symbol_of_startsName hc
  have symbol := symbol_of_no_symbol (x := x) noSymbol
  have string : string (c :: x) = none := string_of_other (by rintro rfl; revert hc; decide)
  have number := numeral_of_other (x := x) hd
    (by rintro rfl; exact absurd hc (by decide))
  obtain ⟨u, r, hu⟩ := name_isSome_of_startsName (t := x) hc
  have token : front (c :: x) = some (reclassify .identifier u, u, r) := by
    simp [front, longestAmong, plainClasses, longer, number.1, hu, string, symbol]
  exact reader_of_name ht token number.2 hu (numberAhead_of_other hd) string
    fun hs => reader_of_no_symbol noSymbol hs

/-- At a quote, each terminal reads the token that it stands for. -/
theorem reader_eq_front_of_quote (x : Text) :
    t.reader ('"' :: x) = (front ('"' :: x)).bind (taken t) := by
  have noSymbol : ∀ w ∈ symbols, w.head? ≠ some '"' := by decide
  have symbol := symbol_of_no_symbol (x := x) noSymbol
  have number := numeral_of_other (c := '"') (x := x) (by decide) fun he => absurd he (by decide)
  have name : name ('"' :: x) = none := name_of_not_startsName (by simp only [stops]; decide)
  refine reader_of_string ht ?_ number.2 name fun hs => reader_of_no_symbol noSymbol hs
  simp only [front, longestAmong, plainClasses, List.foldl_cons, List.foldl_nil, longer, number.1,
    name, symbol]
  cases string ('"' :: x) <;> simp [reclassify]

theorem reader_eq_front_of_pointFirst {x : Text} (hx : stops isDigit x = false) :
    t.reader ('.' :: x) = (front ('.' :: x)).bind (taken t) := by
  obtain ⟨d, r, rfl, hd, hr⟩ := exists_run isDigit x
  have hn : d ≠ [] := by
    rintro rfl
    rw [List.nil_append, hr] at hx
    cases hx
  have point : orElse pointed pointFirst ('.' :: (d ++ r)) = some ('.' :: d, r) := by
    have first : pointFirst ('.' :: (d ++ r)) = some ('.' :: d, r) := by
      simp [pointFirst, andThen, word, digits, some1_append hn hd hr]
    have noDigit : digits ('.' :: (d ++ r)) = none := some1_of_stops (by simp only [stops]; decide)
    simp [orElse, pointed, andThen, noDigit, first]
  obtain ⟨u, s, hu, hr', hl⟩ := numberReader_of_point point
  have name : name ('.' :: (d ++ r)) = none := name_of_not_startsName (by simp only [stops]; decide)
  have string : string ('.' :: (d ++ r)) = none := string_of_other (by decide)
  have noPair : ∀ b s, d ++ r = b :: s → ['.', b] ∉ pairs := by
    intro b s _ hm
    simp [pairs] at hm
  have symbol : symbol ('.' :: (d ++ r)) = some (['.'], d ++ r) := by
    rw [symbol_of_single noPair, if_pos (by decide)]
  have token : front ('.' :: (d ++ r)) = some (.number, u, s) := by
    have longer_number : ¬ u.length < 1 := by simp only [List.length_cons] at hl; omega
    simp [front, longestAmong, plainClasses, longer, hu, name, string, symbol, longer_number,
      reclassify]
  refine reader_of_number ht token hr' (identifierReader_of_no_name name) string
    (fun k => keywordReader_of_no_name name) fun hs _ _ => ?_
  by_cases hp : t = .period
  · subst hp
    simp [Terminal.reader, notBefore, word, hx]
  · rw [reader_of_single noPair hs fun h => absurd h hp,
      if_neg fun h => hp (eq_period_of_accepts hs h)]

theorem reader_eq_front_of_other {c : Char} {x : Text} (hd : isDigit c = false)
    (hs : startsName c = false) (hq : c ≠ '"') (hp : c = '.' → stops isDigit x = true) :
    t.reader (c :: x) = (front (c :: x)).bind (taken t) := by
  have name : name (c :: x) = none := name_of_not_startsName (by simp [stops, hs])
  have string : string (c :: x) = none := string_of_other hq
  have number := numeral_of_other hd hp
  refine reader_of_symbol ht (front_of_other hd hs hq hp) number.2 name string
    fun hs hm ha => ?_
  by_cases hpair : ∃ d s, x = d :: s ∧ [c, d] ∈ pairs
  · obtain ⟨d, s, rfl, hpair⟩ := hpair
    rw [reader_of_pair s hpair hs hm ha, symbol_of_pair s hpair]
    rfl
  · have noPair : ∀ d s, x = d :: s → [c, d] ∉ pairs := fun d s he hm => hpair ⟨d, s, he, hm⟩
    rw [reader_of_single noPair hs fun _ => hp, symbol_of_single noPair]
    by_cases hc : [c] ∈ symbols
    · rw [if_pos hc]; rfl
    · rw [if_neg hc, if_neg fun h => hc (symbol_of_accepts hs h).2]; rfl

/-- Every terminal reads the token at the front, if it stands for it. -/
theorem reader_eq_front : ∀ x : Text, t.reader x = (front x).bind (taken t)
  | [] => by
      have token : front [] = none := rfl
      rw [token]
      rcases isPlain_cases ht with rfl | rfl | rfl | ⟨k, rfl⟩ | ⟨hs, -, -⟩
      · rfl
      · rfl
      · rfl
      · exact keywordReader_of_no_name rfl
      · cases t <;> first | rfl | cases hs
  | c :: x => by
      cases hd : isDigit c with
      | true => exact reader_eq_front_of_digit ht hd
      | false =>
        cases hs : startsName c with
        | true => exact reader_eq_front_of_name ht hd hs
        | false =>
          by_cases hq : c = '"'
          · subst hq
            exact reader_eq_front_of_quote ht x
          · by_cases hp : c = '.' ∧ stops isDigit x = false
            · obtain ⟨rfl, hx⟩ := hp
              exact reader_eq_front_of_pointFirst ht hx
            · refine reader_eq_front_of_other ht hd hs hq fun hc => ?_
              cases hx : stops isDigit x with
              | true => rfl
              | false => exact absurd ⟨hc, hx⟩ hp

end Cases

end SolidScript.Lexeme
