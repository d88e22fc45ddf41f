import SolidScript.Proofs.Phrase.Line
import SolidScript.Proofs.Phrase.Run

/-!
# Tokens — written again with blanks between them

The tokens of a source, written with a blank between neighbours, are read as they were.  A blank ends
every token, and none comes about that goes on over one: only strings and references to files have
blanks in them, and a string is read to its end as before.

A reference is what remains.  Its word is a name, and the name may have been kept from its file by a
comment, which is not written again; so no such name may come before a token that starts as a file
does (`Token.Invites`).

* `Line.lies_spaced`: every token of the line ends where it should.
* `reads_of_laidToEnd`: what lies in a source is what a lexer reads, references aside.
* `ofSource_spaced`: the tokens are those that were written.
-/

namespace SolidScript
open Grammar

/-! ### Tokens in a line -/

namespace Line

/-- The tokens with a blank between neighbours. -/
def spaced : List Token → Line
  | []          => []
  | [k]         => [some k.shape]
  | k :: l :: r => some k.shape :: none :: spaced (l :: r)

theorem text_spaced (ks : List Token) :
    (spaced ks).text = Text.joined [' '] (ks.map Token.text) := by
  induction ks using spaced.induct with
  | case1 => rfl
  | case2 k => exact List.append_nil _
  | case3 k l r ih =>
    change k.text ++ ' ' :: (spaced (l :: r)).text = k.text ++ [' '] ++ _
    rw [ih, List.append_assoc]
    rfl

theorem shapes_spaced (ks : List Token) : (spaced ks).tokens.map Token.shape = ks.map Token.shape := by
  induction ks using spaced.induct with
  | case1 => rfl
  | case2 k => rfl
  | case3 k l r ih => exact congrArg (k.shape :: ·) ih

/-- A token that is one by itself is one before a blank, and starts no comment with it. -/
theorem stands_of_alone {k : Token} (h : k.Alone) {r : Text} (hr : ∀ c ∈ r.head?, c = ' ') :
    Stands k.kind k.text r := by
  constructor
  · refine Lexeme.Begins.cut (v := []) (s := []) h fun c w he => ?_
    rw [hr c (by rw [he]; rfl)]
    decide
  · intro _ stroke
    have head : r.head? = some '/' ∨ r.head? = some '*' := by simpa using stroke
    rcases head with head | head
    · exact absurd (hr _ head) (by decide)
    · exact absurd (hr _ head) (by decide)

/-- Tokens that are tokens by themselves stay as they are with blanks between them. -/
theorem lies_spaced {ks : List Token} (h : ∀ k ∈ ks, k.Alone) :
    Lies (fun _ => False) (spaced ks) [] := by
  induction ks using spaced.induct with
  | case1 => exact lies_nil
  | case2 k =>
    have alone := h k List.mem_cons_self
    exact ⟨.inl (stands_of_alone alone fun c hc => by cases hc), lies_nil⟩
  | case3 k l r ih =>
    rw [List.forall_mem_cons] at h
    exact ⟨.inl (stands_of_alone h.1 fun c hc => (Option.some.inj hc).symm), ih h.2⟩

end Line

/-! ### References -/

/-- The first token is a name that is the word of a reference, and the second starts as a file
does. -/
def Token.Invites (k l : Token) : Prop :=
  k.kind = .identifier ∧ (k.text = Text.lit "use" ∨ k.text = Text.lit "include") ∧
    l.text.head? = some '<'

instance (k l : Token) : Decidable (k.Invites l) := inferInstanceAs (Decidable (_ ∧ _ ∧ _))

namespace Grammar

/-- A lexer reads the tokens that lie in a source, unless a name and what follows it could be taken
for a reference. -/
theorem reads_of_laidToEnd {here : Cursor} {ks : List Token} (h : LaidToEnd here ks)
    (apart : ks.IsChain fun k l => ¬ k.Invites l) : Reads here ks := by
  obtain ⟨next, laid, ends⟩ := h
  induction laid with
  | nil here => exact .done (next_eq_done_iff.2 ⟨ends, rfl⟩)
  | @cons here mid next k ks first rest ih =>
    refine .token ?_ (ih apart.tail ends)
    rcases first.next_or_reference with step | ⟨name, r, last, x, -, -, -, opens, -⟩
    · exact step
    · refine first.next fun hk word => ?_
      -- what comes next starts as a file does, so it is a token
      cases rest with
      | nil => rw [ends] at opens; cases opens
      | @cons _ _ _ l ls second _ =>
        obtain ⟨split, ne, -⟩ := second.rest
        have head : l.text.head? = some '<' := by
          rw [opens] at split
          rw [← List.head?_append_of_ne_nil _ ne, ← split]
          rfl
        exact (List.isChain_cons_cons.1 apart).1 ⟨hk, by simpa [Lexeme.referenceWords] using word, head⟩

end Grammar

/-- Tokens that are alike have the same shapes. -/
theorem AllAlike.shapes {f g : Place → Place} {ks ls : List Token} (h : AllAlike f g ks ls) :
    ls.map Token.shape = ks.map Token.shape := by
  induction h with
  | nil => rfl
  | cons h _ ih => rw [List.map_cons, List.map_cons, ih, Token.shape, Token.shape, h.kind, h.text]

/-- The tokens of a source, written with single blanks between them, are tokens of the same classes
and texts, unless a name that is the word of a reference comes before a token that starts as a file
does. -/
theorem ofSource_spaced {source : Text} {ks : List Token} (h : Token.ofSource source = .ok ks)
    (apart : ks.IsChain fun k l => ¬ k.Invites l) :
    ∃ ls, Token.ofSource (Text.joined [' '] (ks.map Token.text)) = .ok ls ∧
      ls.map Token.shape = ks.map Token.shape := by
  have alone : ∀ k ∈ ks, k.Alone := by
    intro k hk
    obtain ⟨_, laid, -⟩ := laid_of_reads (ofSource_eq_ok_iff.1 h)
    obtain ⟨_, _, hat⟩ := laid.exists_at hk
    exact hat.alone
  obtain ⟨ls, laid, alike⟩ := laidToEnd_of_lies (Line.lies_spaced alone)
  have shapes : ls.map Token.shape = ks.map Token.shape :=
    alike.shapes.trans (Line.shapes_spaced ks)
  have apart' : ls.IsChain fun k l => ¬ k.Invites l := by
    let apartAsShapes (a b : TokenKind × Text) : Prop :=
      ¬ Token.Invites ⟨a.1, a.2, 0⟩ ⟨b.1, b.2, 0⟩
    have of_shapes : (ks.map Token.shape).IsChain apartAsShapes :=
      (List.isChain_map Token.shape).2 apart
    rw [← shapes] at of_shapes
    exact (List.isChain_map Token.shape).1 of_shapes
  rw [Line.text_spaced] at laid
  exact ⟨ls, ofSource_eq_ok_iff.2 (reads_of_laidToEnd laid apart'), shapes⟩

/-- A string that holds the start of a comment, a stroke and a star, and a name before a sign. -/
theorem ofSource_spaced_marks :
    ∃ ls, Token.ofSource (Text.lit "\"/*\" / * 1e - use ; 7. .5") = .ok ls ∧
      ls.map Token.shape = [(.string, Text.lit "\"/*\""), (.symbol, ['/']), (.symbol, ['*']),
        (.identifier, Text.lit "1e"), (.symbol, ['-']), (.identifier, Text.lit "use"),
        (.symbol, [';']), (.number, Text.lit "7."), (.number, Text.lit ".5")] := by
  have read : Token.ofSource (Text.lit "\"/*\"/ *1e-use/* */;7..5") =
      .ok [⟨.string, Text.lit "\"/*\"", 0⟩, ⟨.symbol, ['/'], 4⟩, ⟨.symbol, ['*'], 6⟩,
        ⟨.identifier, Text.lit "1e", 7⟩, ⟨.symbol, ['-'], 9⟩, ⟨.identifier, Text.lit "use", 10⟩,
        ⟨.symbol, [';'], 18⟩, ⟨.number, Text.lit "7.", 19⟩, ⟨.number, Text.lit ".5", 21⟩] := by
    decide +kernel
  exact ofSource_spaced read (by decide)

/-- The name that is left out above: with the comment gone, the file is its own. -/
example : Token.ofSource (Text.lit "use/**/<a>") =
      .ok [⟨.identifier, Text.lit "use", 0⟩, ⟨.symbol, ['<'], 7⟩, ⟨.identifier, ['a'], 8⟩,
        ⟨.symbol, ['>'], 9⟩] ∧
    Token.ofSource (Text.lit "use < a >") = .ok [⟨.useFile, Text.lit "use < a >", 0⟩] := by
  decide +kernel

end SolidScript
