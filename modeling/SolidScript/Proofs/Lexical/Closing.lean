import SolidScript.Proofs.Lexical.Cut

/-!
# Lexical — what may follow a token directly

A name, a numeral or a string ends where a bracket, a comma, a colon, a semicolon, an equals sign or a
blank comes, and where a point comes unless it is a number that is digits so far.  A symbol of one
character ends where no equals sign makes a longer one of it.

A point before a name is a symbol unless the name starts with a digit: then it starts a numeral, and
what is left of the name follows the numeral directly (`front_of_pointed_name`).
-/

namespace SolidScript.Lexeme
open Spelling (Best IsFirst Spelled)
open Token (longestAmong reclassify)
open Text (isBlank isDigit isWord)

/-- The characters that end a name, a numeral or a string. -/
def closers : List Char := [' ', ')', ']', '[', ',', ':', ';', '.', '(', '=']

theorem not_continuesWord_of_mem_closers : ∀ c ∈ closers, continuesWord c = false :=
  List.all_iff_forall_prop.1 (by decide +kernel)

/-- Of what numerals are made of besides digits, only the point is among them. -/
theorem eq_point_of_mem_closers : ∀ c ∈ closers, c ∈ ['.', 'e', 'E', '+', '-'] → c = '.' :=
  List.all_iff_forall_prop.1 (by decide)

/-! ### Points in numerals -/

/-- There is no point in an exponent. -/
theorem point_not_mem_exponent {x : Text} (h : IsExponent x) : '.' ∉ x := by
  obtain ⟨c, s, ds, rfl, mark, sign, -, digits⟩ := h
  simp only [List.mem_cons, List.mem_append, not_or]
  refine ⟨?_, ?_, fun hm => absurd (digits _ hm) (by decide)⟩
  · rintro rfl
    exact absurd mark (by decide)
  · rcases sign with rfl | ⟨g, rfl, hg⟩
    · simp
    · rw [List.mem_singleton]
      rintro rfl
      exact absurd hg (by decide)

/-- Before a point in a numeral there are digits. -/
theorem isDigit_before_point {u w : Text} (h : Spelling.number.Spells (u ++ '.' :: w)) :
    ∀ c ∈ u, isDigit c = true := by
  obtain ⟨b, x, split, body, hx⟩ := spells_number_iff.1 h
  have noPoint : '.' ∉ x := by
    rcases hx with rfl | hx
    · simp
    · exact point_not_mem_exponent hx
  have digits {t : Text} (ht : ∀ c ∈ t, isDigit c = true) : '.' ∉ t :=
    fun hm => absurd (ht _ hm) (by decide)
  rcases body with ⟨d, f, rfl, hd, hf, -⟩ | ⟨-, hb⟩
  · have whole : u ++ '.' :: w = d ++ '.' :: (f ++ x) := by rw [split, List.append_assoc]; rfl
    have after : '.' ∉ f ++ x := by
      rw [List.mem_append, not_or]
      exact ⟨digits hf, noPoint⟩
    -- the point stands before what has none in it, and after what has none in it
    rcases List.append_eq_append_iff.1 whole with ⟨z, rfl, hz⟩ | ⟨z, rfl, hz⟩
    · exact fun c hc => hd c (List.mem_append_left _ hc)
    · cases z with
      | nil => simpa using hd
      | cons c z =>
        refine absurd ?_ after
        rw [(List.cons.inj hz).2]
        simp
  · refine absurd ?_ (digits hb)
    have mem : '.' ∈ b ++ x := split ▸ (by simp)
    exact (List.mem_append.1 mem).resolve_right noPoint

/-! ### Names, numerals and strings -/

/-- The class of a token at the front spells it. -/
theorem spells_of_front {t u r : Text} {kind : TokenKind} (h : front t = some (kind, u, r)) :
    ∃ k p, (k, p) ∈ Spelling.plainClasses ∧ p.Spells u ∧ kind = reclassify k u ∧
      (k ≠ .number → ¬ Spelling.number.Spells u) := by
  obtain ⟨k, ⟨-, ⟨before, p, after, split, spells, first⟩, -⟩, rfl⟩ := front_eq_some_iff.1 h
  refine ⟨k, p, by simp [split], spells, rfl, fun hk number => first ?_⟩
  cases before with
  | nil => exact absurd (Prod.mk.inj (List.cons.inj split).1).1.symm hk
  | cons q before =>
    exact ⟨q, List.mem_cons_self, (List.cons.inj split).1 ▸ number⟩

/-- What is no numeral is not digits alone. -/
theorem exists_not_isDigit {t u r : Text} {kind : TokenKind} (h : front t = some (kind, u, r))
    (hk : kind ≠ .number) : ∃ c ∈ u, isDigit c = false := by
  obtain ⟨k, p, -, -, rfl, first⟩ := spells_of_front h
  have number : k ≠ .number := by
    rintro rfl
    exact hk (if_neg (by simp))
  by_contra all
  push Not at all
  refine first number (spells_number_iff.2 ⟨u, [], by simp, .inr ⟨(Grammar.front_splits h).2, ?_⟩, .inl rfl⟩)
  exact fun c hc => by simpa using all c hc

/-- A lexeme of two characters at least is no symbol, unless it starts as one. -/
theorem head_of_long_symbol {c : Char} {w : Text} (h : c :: w ∈ symbols) (hw : w ≠ []) :
    isDigit c = false ∧ c ∉ ['.', 'e', 'E', '+', '-'] ∧ continuesWord c = false := by
  have heads : ∀ w ∈ symbols, w.tail ≠ [] → w.head?.all (fun c => isDigit c = false ∧
      c ∉ ['.', 'e', 'E', '+', '-'] ∧ continuesWord c = false) = true := by decide +kernel
  simpa using heads _ h hw

/-- No lexeme goes on past a name or a numeral into one of the closers, but a numeral that is digits
so far into a point. -/
theorem not_spelled_of_closer {u w : Text} {c : Char} (hn : u ≠ [])
    (hu : ∀ d ∈ u, isDigit d = true ∨ d ∈ ['.', 'e', 'E', '+', '-'] ∨ continuesWord d = true)
    (hq : '"' ∉ u) (hc : c ∈ closers) (hp : c = '.' → ∃ d ∈ u, isDigit d = false) :
    ¬ Spelled Spelling.plainClasses (u ++ c :: w) := by
  have word := not_continuesWord_of_mem_closers c hc
  obtain ⟨d, v, rfl⟩ := List.exists_cons_of_ne_nil hn
  rintro ⟨p, hp', h⟩
  simp only [Spelling.plainClasses, List.mem_cons, List.not_mem_nil, or_false] at hp'
  rcases hp' with rfl | rfl | rfl | rfl
  · rcases mem_of_spells_number h c (by simp) with digit | mark
    · rw [continuesWord_of_startsName (startsName_of_isDigit digit)] at word
      cases word
    · have point := eq_point_of_mem_closers c hc mark
      obtain ⟨e, he, other⟩ := hp point
      subst point
      rw [isDigit_before_point h e he] at other
      cases other
  · rw [mem_of_spells_identifier h c (by simp)] at word
    cases word
  · exact hq (Option.some.inj (head_of_string h) ▸ List.mem_cons_self)
  · obtain ⟨digit, mark, continues⟩ :=
      head_of_long_symbol (Spelling.spells_anyOf_iff.1 h) (by simp)
    rcases hu d List.mem_cons_self with h | h | h
    · rw [h] at digit
      cases digit
    · exact mark h
    · rw [h] at continues
      cases continues

/-- A name, a numeral or a string ends before a closer. -/
theorem Begins.closed {kind : TokenKind} {u : Text} (h : Begins kind u [])
    (hk : kind ∈ [TokenKind.number, .identifier, .string, .keyword]) {c : Char} (hc : c ∈ closers)
    (hp : c = '.' → ∃ d ∈ u, isDigit d = false) (r : Text) : Begins kind u (c :: r) := by
  cases h with
  | plain front =>
    refine .plain (front_cut_of (v := []) (s := []) front fun w m he hw => ?_)
    obtain ⟨d, w, rfl⟩ := List.exists_cons_of_ne_nil hw
    obtain rfl : c = d := (List.cons.inj he).1
    obtain ⟨k, p, mem, spells, rfl, -⟩ := spells_of_front front
    rw [List.nil_append]
    by_cases hs : p = Spelling.string
    · subst hs
      exact not_spelled_of_string spells hw
    · have chars := not_mem_of_spells mem hs spells
      refine not_spelled_of_closer (Grammar.front_splits front).2 ?_ (fun hm => (chars _ hm).2 rfl) hc hp
      simp only [Spelling.plainClasses, List.mem_cons, List.not_mem_nil, or_false] at mem
      rcases mem with he | he | he | he
      · obtain ⟨-, rfl⟩ := Prod.mk.inj he
        exact fun d hd => (mem_of_spells_number spells d hd).imp_right .inl
      · obtain ⟨-, rfl⟩ := Prod.mk.inj he
        exact fun d hd => .inr (.inr (mem_of_spells_identifier spells d hd))
      · exact absurd (Prod.mk.inj he).2 hs
      · obtain ⟨rfl, -⟩ := Prod.mk.inj he
        simp [reclassify] at hk
  | useFile _ he => subst he; simp at hk
  | includeFile _ he => subst he; simp at hk

/-! ### Symbols -/

/-- No symbol starts with a character that words go on with. -/
theorem not_continuesWord_of_symbol {c : Char} {u r : Text} (h : Begins .symbol (c :: u) r) :
    continuesWord c = false := by
  cases h with
  | plain front =>
    obtain ⟨k, p, mem, spells, kind, -⟩ := spells_of_front front
    obtain rfl := Grammar.eq_of_reclassify kind.symm (by decide)
    simp only [Spelling.plainClasses, List.mem_cons, List.not_mem_nil, or_false, Prod.mk.injEq,
      reduceCtorEq, false_and, false_or, true_and] at mem
    subst mem
    have heads : ∀ w ∈ symbols, w.head?.any continuesWord = false := by decide +kernel
    exact heads _ (Spelling.spells_anyOf_iff.1 spells)
  | useFile _ he | includeFile _ he => cases he

/-- The symbols of one character. -/
def singles : List Char :=
  [';', '\x7b', '\x7d', '(', ')', '[', ']', ',', '=', '<', '>', '+', '-', '*', '/', '%', '!', '#',
   '?', ':', '.']

/-- A symbol of one character ends where no equals sign makes a longer one of it, and a point where
no digit makes a numeral of it. -/
theorem begins_single {c : Char} {r : Text} (hc : c ∈ singles)
    (he : c ∈ ['=', '<', '>', '!'] → r.head? ≠ some '=')
    (hp : c = '.' → Reader.stops isDigit r = true) : Begins .symbol [c] r := by
  have classes : ∀ c ∈ singles, isDigit c = false ∧ startsName c = false ∧ c ≠ '"' ∧
      [c] ∈ symbols ∧ ∀ w ∈ pairs, w.head? = some c → c ∈ ['=', '<', '>', '!'] ∧ w = [c, '='] :=
    List.all_iff_forall_prop.1 (by decide +kernel)
  obtain ⟨digit, name, quote, mem, paired⟩ := classes c hc
  have noPair : ∀ d s, r = d :: s → [c, d] ∉ pairs := by
    rintro d s rfl hm
    obtain ⟨hce, hw⟩ := paired _ hm rfl
    exact he hce (by rw [(List.cons.inj (List.cons.inj hw).2).1]; rfl)
  refine .plain ?_
  rw [List.singleton_append, front_of_other digit name quote hp, symbol_of_single noPair, if_pos mem]
  rfl

/-- A symbol of two characters is a token before everything. -/
theorem begins_pair {c d : Char} (h : [c, d] ∈ pairs) (r : Text) : Begins .symbol [c, d] r := by
  have classes : ∀ w ∈ pairs, w.head?.all (fun c => isDigit c = false ∧ startsName c = false ∧
      c ≠ '"' ∧ c ≠ '.') = true := by decide +kernel
  obtain ⟨digit, name, quote, point⟩ : isDigit c = false ∧ startsName c = false ∧ c ≠ '"' ∧
      c ≠ '.' := by simpa using classes _ h
  refine .plain ?_
  rw [List.cons_append, List.singleton_append,
    front_of_other digit name quote fun h => absurd h point, symbol_of_pair r h]
  rfl

/-- A numeral is a token. -/
theorem begins_number {t : Text} (h : Spelling.number.Spells t) : Begins .number t [] := by
  refine .plain (front_eq_some_iff.2 ⟨.number, ⟨rfl, ⟨[], Spelling.number, _, rfl, h, ?_⟩, ?_⟩, rfl⟩)
  · rintro ⟨_, hp, -⟩
    cases hp
  · intro v s split _
    have length := congrArg List.length split
    simp only [List.append_nil, List.length_append] at length
    omega

/-! ### A name after a point -/

/-- What follows the point of a numeral that starts with it is a numeral too. -/
theorem spells_number_of_point {f : Text} (h : Spelling.number.Spells ('.' :: f)) :
    Spelling.number.Spells f := by
  obtain ⟨b, x, split, body, hx⟩ := spells_number_iff.1 h
  rcases body with ⟨d, g, rfl, hd, hg, ne⟩ | ⟨ne, hb⟩
  · cases d with
    | nil =>
      obtain rfl : f = g ++ x := (List.cons.inj split).2
      exact spells_number_iff.2 ⟨g, x, rfl, .inr ⟨ne.resolve_left (by simp), hg⟩, hx⟩
    | cons c d =>
      obtain rfl : '.' = c := (List.cons.inj split).1
      exact absurd (hd _ List.mem_cons_self) (by decide)
  · obtain ⟨c, b, rfl⟩ := List.exists_cons_of_ne_nil ne
    obtain rfl : '.' = c := (List.cons.inj split).1
    exact absurd (hb _ List.mem_cons_self) (by decide)

/-- A text that starts with a point and a digit starts with a numeral. -/
theorem front_of_point {d : Char} (hd : isDigit d = true) (t : Text) :
    ∃ u m, front ('.' :: d :: t) = some (.number, '.' :: u, m) ∧ d :: t = u ++ m ∧
      Spelling.number.Spells ('.' :: u) := by
  have short : Spelled Spelling.plainClasses ['.', d] :=
    ⟨(.number, Spelling.number), by simp [Spelling.plainClasses], spells_number_iff.2
      ⟨['.', d], [], rfl, .inl ⟨[], [d], rfl, by simp, by simpa using hd, by simp⟩, .inl rfl⟩⟩
  have best := Spelling.best_longestAmong Spelling.finds_plainClasses ('.' :: d :: t)
  cases found : longestAmong plainClasses ('.' :: d :: t) with
  | none =>
    rw [found] at best
    exact absurd short (best ['.', d] t rfl)
  | some o =>
    obtain ⟨k, u, m⟩ := o
    rw [found] at best
    obtain ⟨split, ⟨before, p, after, classes, spells, -⟩, longest⟩ := best
    have long : 2 ≤ u.length := longest ['.', d] t rfl short
    obtain ⟨c, u, rfl⟩ := List.exists_cons_of_ne_nil (show u ≠ [] by rintro rfl; simp at long)
    obtain ⟨rfl, rest⟩ := List.cons.inj split
    have mem : (k, p) ∈ Spelling.plainClasses := by simp [classes]
    simp only [Spelling.plainClasses, List.mem_cons, List.not_mem_nil, or_false,
      Prod.mk.injEq] at mem
    rcases mem with ⟨rfl, rfl⟩ | ⟨rfl, rfl⟩ | ⟨rfl, rfl⟩ | ⟨rfl, rfl⟩
    · exact ⟨u, m, by rw [front, found]; rfl, rest, spells⟩
    · exact absurd (mem_of_spells_identifier spells _ List.mem_cons_self) (by decide)
    · exact absurd (Option.some.inj (head_of_string spells)) (by decide)
    · have goes : u ≠ [] := by
        rintro rfl
        exact absurd long (by decide)
      exact absurd (head_of_long_symbol (Spelling.spells_anyOf_iff.1 spells) goes).2.1 (by decide)

/-- Of a name that starts with a digit, a point before it leaves only the end: the front belongs to
a numeral. -/
theorem front_of_pointed_name {f r : Text} (hf : front f = some (.identifier, f, []))
    (hd : ∃ c ∈ f.head?, isDigit c = true) (hr : ∀ c ∈ r.head?, c ∈ closers) :
    ∃ u c v, front ('.' :: (f ++ r)) = some (.number, u, c :: v) ∧ continuesWord c = true := by
  obtain ⟨k, p, mem, spells, kind, first⟩ := spells_of_front hf
  obtain rfl : k = .identifier := Grammar.eq_of_reclassify kind.symm (by decide)
  obtain rfl : p = Spelling.identifier := by simpa [Spelling.plainClasses] using mem
  obtain ⟨d, hd, digit⟩ := hd
  obtain ⟨f', rfl⟩ := List.head?_eq_some_iff.1 hd
  obtain ⟨u, m, token, split, number⟩ := front_of_point digit (f' ++ r)
  have noNumber := first (by decide)
  rcases List.append_eq_append_iff.1 (show (d :: f') ++ r = u ++ m from split) with
    ⟨z, rfl, rfl⟩ | ⟨z, rest, rfl⟩
  · cases z with
    | nil =>
      rw [List.append_nil] at number
      exact absurd (spells_number_of_point number) noNumber
    | cons c z =>
      -- the numeral would go on into a closer, and the only one in numerals is a second point
      have closer := hr c rfl
      exfalso
      rcases mem_of_spells_number number c (by simp) with digit | mark
      · have word := not_continuesWord_of_mem_closers c closer
        rw [continuesWord_of_startsName (startsName_of_isDigit digit)] at word
        cases word
      · obtain rfl := eq_point_of_mem_closers c closer mark
        rw [← List.cons_append] at number
        exact absurd (isDigit_before_point number '.' List.mem_cons_self) (by decide)
  · cases z with
    | nil =>
      rw [List.append_nil] at rest
      rw [← rest] at number
      exact absurd (spells_number_of_point number) noNumber
    | cons c z =>
      refine ⟨_, c, z ++ r, token, mem_of_spells_identifier spells c ?_⟩
      rw [rest]
      simp

end SolidScript.Lexeme
