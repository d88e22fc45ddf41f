import SolidScript.Proofs.Lexical.Closing
import SolidScript.Proofs.Phrase.Alike
import SolidScript.Proofs.Phrase.Flow
import SolidScript.Proofs.Phrase.Sample

/-!
# Phrase — tokens written in a line

A line is tokens with blanks between some of them.  If every token in it ends where the next one is to
start, the tokens of the text are those that were written (`laid_of_lies`).  The one thing that goes
wrong in the lines of this library is a point before a name that starts with a digit: the two are read
as a numeral with the end of the name directly behind it (`exists_stuck`).

* `Line.text`, `Line.tokens`: what a line reads, and the tokens that were written.
* `Line.Lies`: every token ends where the next one starts, points before some names aside.
-/

namespace SolidScript
open Lexeme (Begins closers continuesWord)
open Text (isDigit)

/-- Classes and texts of tokens, with blanks among them: nothing stands for a blank. -/
abbrev Line := List (Option (TokenKind × Text))

namespace Line

/-- What the line reads. -/
def text : Line → Text
  | []               => []
  | none :: l        => ' ' :: text l
  | some (_, u) :: l => u ++ text l

/-- The tokens of the line, as if each stood at the start of a source. -/
def tokens : Line → List Token
  | []                  => []
  | none :: l           => tokens l
  | some (kind, u) :: l => ⟨kind, u, 0⟩ :: tokens l

/-- A symbol of one character. -/
abbrev mark (c : Char) : Option (TokenKind × Text) := some (.symbol, [c])

/-- A keyword. -/
abbrev word (w : Keyword) : Option (TokenKind × Text) := some (.keyword, w.spelling)

/-- A name, or a keyword in the place of one. -/
abbrev name (n : Text) : Option (TokenKind × Text) := some (Token.reclassify .identifier n, n)

/-- Lines with a comma and a blank between neighbours. -/
def commas : List Line → Line
  | []          => []
  | [l]         => l
  | l :: m :: r => l ++ mark ',' :: none :: commas (m :: r)

@[simp] theorem text_nil : text [] = [] := rfl

@[simp] theorem text_blank (l : Line) : text (none :: l) = ' ' :: text l := rfl

@[simp] theorem text_token (kind : TokenKind) (u : Text) (l : Line) :
    text (some (kind, u) :: l) = u ++ text l := rfl

/-- Lines one after the other read as their texts one after the other. -/
@[simp] theorem text_append (l m : Line) : text (l ++ m) = text l ++ text m := by
  induction l using text.induct with
  | case1 => rfl
  | case2 l ih => rw [List.cons_append, text_blank, ih, text_blank, List.cons_append]
  | case3 kind u l ih => rw [List.cons_append, text_token, ih, text_token, List.append_assoc]

@[simp] theorem tokens_nil : tokens [] = [] := rfl

@[simp] theorem tokens_blank (l : Line) : tokens (none :: l) = tokens l := rfl

@[simp] theorem tokens_token (kind : TokenKind) (u : Text) (l : Line) :
    tokens (some (kind, u) :: l) = ⟨kind, u, 0⟩ :: tokens l := rfl

/-- Lines one after the other have their tokens one after the other. -/
@[simp] theorem tokens_append (l m : Line) : tokens (l ++ m) = tokens l ++ tokens m := by
  induction l using tokens.induct with
  | case1 => rfl
  | case2 l ih => rw [List.cons_append, tokens_blank, ih, tokens_blank]
  | case3 kind u l ih => rw [List.cons_append, tokens_token, ih, tokens_token, List.cons_append]

/-- The tokens of a line start where a source does. -/
theorem place_tokens {l : Line} (h : tokens l ≠ []) : place (tokens l) = some 0 := by
  induction l using tokens.induct with
  | case1 => exact absurd rfl h
  | case2 l ih => exact ih h
  | case3 => rfl

/-- Lines with commas between them read as their texts with commas between them. -/
theorem text_commas (ls : List Line) : text (commas ls) = commaSeparated (ls.map text) := by
  induction ls using commas.induct with
  | case1 => rfl
  | case2 l => rfl
  | case3 l m r ih => simp [commas, ih, commaSeparated, Text.joined]

/-- What each line spells, the lines spell with commas between them. -/
theorem commas_tokens {α : Type} {P : α → List Token → Prop} {as : List α} {ls : List Line}
    (h : List.Forall₂ (fun a l => P a (tokens l)) as ls) : Commas P as (tokens (commas ls)) := by
  induction ls using commas.induct generalizing as with
  | case1 => cases h with | nil => exact .none
  | case2 l => cases h with | cons h hs => cases hs with | nil => exact .last h
  | case3 l m r ih =>
    cases h with
    | cons h hs =>
      cases hs with
      | cons h' hs =>
        simp only [commas, tokens_append, tokens_token, tokens_blank]
        exact .next h ⟨rfl, rfl⟩ (ih (.cons h' hs))

/-- Each of the lines is a part of them with commas between. -/
theorem mem_infix_commas {l : Line} {ls : List Line} (h : l ∈ ls) : l <:+: commas ls := by
  induction ls using commas.induct with
  | case1 => cases h
  | case2 m =>
    obtain rfl := List.mem_singleton.1 h
    exact List.infix_rfl
  | case3 k m r ih =>
    rcases List.mem_cons.1 h with rfl | h
    · exact ⟨[], mark ',' :: none :: commas (m :: r), by simp [commas]⟩
    · exact (ih h).trans ⟨k ++ [mark ',', none], [], by simp [commas]⟩

/-! ### Lines that stay as they are -/

/-- The text is a token before this, and starts no comment with it. -/
structure Stands (kind : TokenKind) (u r : Text) : Prop where
  begins : Begins kind u r
  stroke : u = ['/'] → r.head? ∉ [some '/', some '*']

/-- Behind a point, a name that starts with a digit comes next, and then something that ends it. -/
def Sticks (P : Text → Prop) (l : Line) (r : Text) : Prop :=
  ∃ f m, l = some (.identifier, f) :: m ∧ P f ∧ Begins .identifier f [] ∧
    (∃ c ∈ f.head?, isDigit c = true) ∧ ∀ c ∈ (text m ++ r).head?, c ∈ closers

/-- Before the text every token of the line is one in what the line reads, but perhaps points before
names of these that start with a digit. -/
def Lies (P : Text → Prop) : Line → Text → Prop
  | [],                  _ => True
  | none :: l,           r => Lies P l r
  | some (kind, u) :: l, r =>
    (Stands kind u (text l ++ r) ∨ u = ['.'] ∧ Sticks P l r) ∧ Lies P l r

variable {P : Text → Prop} {l m : Line} {r : Text}

@[simp] theorem lies_nil : Lies P [] r := trivial

@[simp] theorem lies_blank : Lies P (none :: l) r ↔ Lies P l r := Iff.rfl

theorem lies_cons {kind : TokenKind} {u : Text} :
    Lies P (some (kind, u) :: l) r ↔
      (Stands kind u (text l ++ r) ∨ u = ['.'] ∧ Sticks P l r) ∧ Lies P l r := Iff.rfl

/-- A token that stands before what follows lies if that lies. -/
theorem lies_token {kind : TokenKind} {u : Text} (h : Stands kind u (text l ++ r)) :
    Lies P (some (kind, u) :: l) r ↔ Lies P l r := and_iff_right (.inl h)

theorem Sticks.append (h : Sticks P l (text m ++ r)) : Sticks P (l ++ m) r := by
  obtain ⟨f, k, rfl, hf⟩ := h
  exact ⟨f, k ++ m, rfl, by rwa [text_append, List.append_assoc]⟩

/-- Lines lie one after the other if the first lies before the second. -/
theorem Lies.append (h : Lies P l (text m ++ r)) (k : Lies P m r) : Lies P (l ++ m) r := by
  induction l using text.induct with
  | case1 => exact k
  | case2 l ih => exact ih h
  | case3 kind u l ih =>
    rw [List.cons_append, lies_cons, text_append, List.append_assoc]
    exact ⟨h.1.imp_right (And.imp_right Sticks.append), ih h.2⟩

/-- In a line that stays no token is a point before a name with a digit. -/
theorem not_lies_of_infix {kind : TokenKind} {f : Text} (hf : ∃ c ∈ f.head?, isDigit c = true)
    (h : [mark '.', some (kind, f)] <:+: l) : ¬ Lies (fun _ => False) l r := by
  obtain ⟨us, vs, rfl⟩ := h
  induction us using text.induct with
  | case1 =>
    change ¬ Lies _ (mark '.' :: some (kind, f) :: vs) r
    rintro ⟨stands | ⟨-, _, _, -, no, -⟩, -⟩
    · obtain ⟨c, hc, digit⟩ := hf
      obtain ⟨f, rfl⟩ := List.head?_eq_some_iff.1 hc
      obtain ⟨u, m, number, -⟩ := Lexeme.front_of_point digit (f ++ (text vs ++ r))
      cases stands.begins with
      | plain front =>
        rw [text_token, List.append_assoc, List.singleton_append, List.cons_append, number] at front
        cases front
      | useFile _ he | includeFile _ he => cases he
    · exact no
  | case2 us ih => exact ih
  | case3 kind u us ih => exact fun h => ih h.2

/-- A line lies as it is, or up to the first point before a name with a digit. -/
theorem Lies.stays_or (h : Lies P l r) :
    Lies (fun _ => False) l r ∨ ∃ us kind vs, l = us ++ some (kind, ['.']) :: vs ∧
      Lies (fun _ => False) us ('.' :: (text vs ++ r)) ∧ Sticks P vs r := by
  induction l using text.induct with
  | case1 => exact .inl trivial
  | case2 l ih =>
    refine (ih h).imp id ?_
    rintro ⟨us, kind, vs, rfl, lies, sticks⟩
    exact ⟨none :: us, kind, vs, rfl, lies, sticks⟩
  | case3 kind u l ih =>
    obtain ⟨stands | ⟨rfl, sticks⟩, rest⟩ := h
    · refine (ih rest).imp (fun lies => ⟨.inl stands, lies⟩) ?_
      rintro ⟨us, kind', vs, rfl, lies, sticks⟩
      refine ⟨some (kind, u) :: us, kind', vs, rfl, ⟨.inl ?_, lies⟩, sticks⟩
      simpa using stands
    · exact .inr ⟨[], kind, l, rfl, trivial, sticks⟩

end Line

/-! ### Lines in a source -/

namespace Grammar
open Line (Lies Sticks)

theorem afterSkip_blank (o : Nat) (x : Text) : afterSkip ⟨o, ' ' :: x⟩ = afterSkip ⟨o + 1, x⟩ := by
  obtain ⟨g, hg, ho⟩ := exists_gap ⟨o + 1, x⟩
  obtain ⟨split, isGap, none⟩ := gap_eq_some_iff.1 hg
  have longer : gap (' ' :: x) = some (' ' :: g, (afterSkip ⟨o + 1, x⟩).rest) :=
    gap_eq_some_iff.2 ⟨congrArg (' ' :: ·) split, .blank (by decide) isGap, none⟩
  rw [@afterSkip_of_gap ⟨o, ' ' :: x⟩ _ _ longer]
  have offset : o + (' ' :: g).length = (afterSkip ⟨o + 1, x⟩).offset := by
    rw [ho, List.length_cons, Nat.add_comm g.length, Nat.add_assoc]
  rw [offset]

/-- A token at the front of a text lies there. -/
theorem at_of_stands {kind : TokenKind} {u r : Text} (h : Line.Stands kind u r) {here : Cursor} {o : Nat}
    (hh : afterSkip here = afterSkip ⟨o, u ++ r⟩) :
    At here ⟨kind, u, o⟩ ⟨o + u.length, r⟩ := by
  have stays : afterSkip ⟨o, u ++ r⟩ = ⟨o, u ++ r⟩ :=
    afterSkip_of_gapPiece (gapPiece_of_begins h.begins h.stroke)
  rw [stays] at hh
  exact at_iff.2 (by rw [hh]; exact ⟨rfl, h.begins, rfl, rfl⟩)

/-- The tokens of a line that stays as it is lie in what it reads. -/
theorem laid_of_lies {l : Line} {r : Text} (h : Lies (fun _ => False) l r) {here : Cursor} {o : Nat}
    (hh : afterSkip here = afterSkip ⟨o, l.text ++ r⟩) :
    ∃ ks next o', Laid here ks next ∧ AllAlike id (Option.map fun _ => 0) l.tokens ks ∧
      afterSkip next = afterSkip ⟨o', r⟩ := by
  induction l using Line.text.induct generalizing here o with
  | case1 => exact ⟨[], here, o, .nil here, .nil, hh⟩
  | case2 l ih => exact ih h (hh.trans (afterSkip_blank _ _))
  | case3 kind u l ih =>
    obtain ⟨stands | ⟨-, _, _, -, no, -⟩, rest⟩ := h
    · rw [Line.text_token, List.append_assoc] at hh
      obtain ⟨ks, next, o', laid, alike, hn⟩ := ih rest rfl
      exact ⟨_, next, o', .cons (at_of_stands stands hh) laid, .cons ⟨rfl, rfl, rfl⟩ alike, hn⟩
    · exact no.elim

/-- So are those of a line that is the whole source. -/
theorem laidToEnd_of_lies {l : Line} (h : Lies (fun _ => False) l []) :
    ∃ ks, LaidToEnd (.start l.text) ks ∧ AllAlike id (Option.map fun _ => 0) l.tokens ks := by
  have front : afterSkip (.start l.text) = afterSkip ⟨0, l.text ++ []⟩ := by
    rw [List.append_nil]; rfl
  obtain ⟨ks, next, o, laid, alike, done⟩ := laid_of_lies h front
  exact ⟨ks, ⟨next, laid, by rw [done]; rfl⟩, alike⟩

/-- Where a point comes before a name with a digit there is a number, and the name goes on behind
it. -/
theorem exists_stuck {P : Text → Prop} {vs : Line} {r : Text} (h : Sticks P vs r) {here : Cursor}
    {o : Nat} (hh : afterSkip here = afterSkip ⟨o, '.' :: (vs.text ++ r)⟩) :
    ∃ k next c v, At here k next ∧ k.kind = .number ∧ next.rest = c :: v ∧
      continuesWord c = true := by
  obtain ⟨f, m, rfl, -, begins, digit, closed⟩ := h
  have front : Lexeme.front f = some (.identifier, f, []) := by
    cases begins with
    | plain h => simpa using h
    | useFile _ he | includeFile _ he => cases he
  obtain ⟨u, c, v, number, continues⟩ := Lexeme.front_of_pointed_name front digit closed
  have stays (x : Text) : afterSkip ⟨o, '.' :: x⟩ = ⟨o, '.' :: x⟩ :=
    afterSkip_of_gapPiece (gapPiece_of_head (by decide) (by decide))
  rw [stays, Line.text_token, List.append_assoc] at hh
  refine ⟨⟨.number, u, o⟩, ⟨o + u.length, c :: v⟩, c, v, .plain ?_, rfl, rfl, continues⟩
  rw [tokenAt, hh, number]
  rfl

end Grammar

end SolidScript
