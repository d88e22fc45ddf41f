import SolidScript.Proofs.Lexical.Cut
import SolidScript.Proofs.Lexical.Gap
import SolidScript.Proofs.Phrase.Alike
import SolidScript.Proofs.Phrase.Apart
import SolidScript.Proofs.Phrase.Source

/-!
# Phrase — a source cut off or put elsewhere

Tokens that lie in a source lie there just the same when the source is cut off some way after them
and something else is put there, as long as that starts with a blank (`Laid.cut`); and they lie at
other places when the source is put behind another one (`Laid.moved`).

* `at_iff`: a token stands at a place when the text after the gap starts with it.
-/

namespace SolidScript

/-- The token behind `d` characters more. -/
def Token.moved (d : Nat) (k : Token) : Token := { k with start := k.start + d }

/-- The place behind `d` characters more. -/
def Cursor.moved (d : Nat) (here : Cursor) : Cursor := ⟨here.offset + d, here.rest⟩

/-- Tokens are alike when some are the others, moved. -/
theorem allAlike_moved (d : Nat) (ks : List Token) :
    AllAlike (·.map (· + d)) id ks (ks.map (Token.moved d)) := by
  induction ks with
  | nil => exact .nil
  | cons k ks ih => exact .cons ⟨rfl, rfl, rfl⟩ ih

namespace Grammar
open Lexeme (Begins Parts)
open Text (isBlank)

/-! ### Tokens at the front of a text -/

/-- A reference that is the next token is what the text after the gap starts with. -/
theorem begins_of_next {here next : Cursor} {k : Token} (h : Token.next here = .token k next)
    (hk : k.kind = .useFile ∨ k.kind = .includeFile) : Begins k.kind k.text next.rest := by
  obtain ⟨kind, u, r, hu, rfl, rfl⟩ := next_eq_token_iff.1 h
  obtain ⟨c, hc, hkind, hr⟩ := mem_of_longestAmong hu
  have hc : c ∈ Token.classes := hc
  have rest := (rest_of_next h).1
  dsimp only at hk rest hr ⊢
  rw [rest] at hr
  simp only [Token.classes, List.mem_cons, List.not_mem_nil, or_false] at hc
  rcases hk with hk | hk
  · obtain rfl := eq_of_reclassify hk (by decide)
    rcases hc with rfl | rfl | rfl | rfl | rfl | rfl <;> first | exact .useFile hr hk | cases hkind
  · obtain rfl := eq_of_reclassify hk (by decide)
    rcases hc with rfl | rfl | rfl | rfl | rfl | rfl <;>
      first | exact .includeFile hr hk | cases hkind

/-- A token at a place is what the text after the gap starts with. -/
theorem at_iff {here next : Cursor} {k : Token} :
    At here k next ↔
      (afterSkip here).rest = k.text ++ next.rest ∧ Begins k.kind k.text next.rest ∧
        k.start = (afterSkip here).offset ∧ next.offset = k.start + k.text.length := by
  constructor
  · intro h
    obtain ⟨hr, -, hs, ho⟩ := h.rest
    refine ⟨hr, ?_, hs, ho⟩
    cases h with
    | plain h =>
      obtain ⟨⟨kind, u, r⟩, hu, he⟩ := Option.map_eq_some_iff.1 h
      cases he
      rw [hr] at hu
      exact .plain hu
    | reference h hk => exact begins_of_next h hk
  · rintro ⟨hr, hb, hs, ho⟩
    obtain ⟨kind, u, m⟩ := k
    obtain ⟨n, r⟩ := next
    dsimp only at hr hb hs ho
    subst hs ho
    cases hb with
    | plain h => exact .plain (by rw [tokenAt, hr, h]; rfl)
    | useFile h hk =>
      subst hk
      exact .of_next (next_eq_token_iff.2
        ⟨_, u, r, by rw [hr]; exact longest_of_useFile h, rfl, rfl⟩)
    | includeFile h hk =>
      subst hk
      exact .of_next (next_eq_token_iff.2
        ⟨_, u, r, by rw [hr]; exact longest_of_includeFile h, rfl, rfl⟩)

/-- Nothing is skipped at the front of a token, if it does not start a comment. -/
theorem gapPiece_of_begins {kind : TokenKind} {u r : Text} (h : Begins kind u r)
    (hr : u = ['/'] → r.head? ∉ [some '/', some '*']) : gapPiece (u ++ r) = none := by
  obtain ⟨c, w, rfl, hb, hs⟩ := h.head
  by_cases hc : c = '/'
  · subst hc
    obtain rfl := hs rfl
    have hr := hr rfl
    have comment : Lexeme.comment ('/' :: r) = none := by
      cases r with
      | nil => rfl
      | cons d r =>
        have hd : '/' ≠ d ∧ '*' ≠ d := by simpa [eq_comm] using hr
        simp [Lexeme.comment, Lexeme.lineComment, Lexeme.blockComment, Reader.orElse,
          Reader.andThen, Reader.word, hd.1, hd.2]
    simp [gapPiece, Reader.orElse, Reader.some1_of_stops (show Reader.stops isBlank ('/' :: r) = true
      by simp [Reader.stops, hb]), comment]
  · exact gapPiece_of_head hb hc

/-- A text that starts with a token, after a gap. -/
theorem at_of_begins {o : Nat} {g u r : Text} {kind : TokenKind} (hg : IsGap g (u ++ r))
    (h : Begins kind u r) (hr : u = ['/'] → r.head? ∉ [some '/', some '*']) :
    At ⟨o, g ++ (u ++ r)⟩ ⟨kind, u, o + g.length⟩ ⟨o + g.length + u.length, r⟩ := by
  have skip : afterSkip ⟨o, g ++ (u ++ r)⟩ = ⟨o + g.length, u ++ r⟩ :=
    afterSkip_of_gap (gap_eq_some_iff.2 ⟨rfl, hg, gapPiece_of_begins h hr⟩)
  exact at_iff.2 (by rw [skip]; exact ⟨rfl, h, rfl, rfl⟩)

/-! ### A source cut off -/

/-- A stroke that is a token is not followed by another one. -/
theorem At.not_stroke {here next : Cursor} {k : Token} (h : At here k next) (hk : k.text = ['/']) :
    next.rest.head? ≠ some '/' := by
  intro he
  obtain ⟨c, hc⟩ := List.head?_eq_some_iff.1 he
  obtain ⟨g, hg, -⟩ := exists_gap here
  have piece := gapPiece_of_gap hg
  rw [h.rest.1, hk, hc] at piece
  have blank : Reader.some1 isBlank ('/' :: '/' :: c) = none :=
    Reader.some1_of_stops (by simp only [Reader.stops]; decide)
  simp [gapPiece, Reader.orElse, blank, Lexeme.comment, Lexeme.lineComment, Reader.andThen,
    Reader.word, Reader.all] at piece

/-- The token stays when the source is cut off some way after it, or replaced there by a text that
starts with a blank. -/
theorem At.cut {o n : Nat} {b v s r : Text} {k : Token} (h : At ⟨o, b ++ s⟩ k ⟨n, v ++ s⟩)
    (hr : Parts r) (hv : k.text = ['/'] → v.head? ≠ some '*') :
    At ⟨o, b ++ r⟩ k ⟨n, v ++ r⟩ := by
  obtain ⟨g, hg, ho⟩ := exists_gap ⟨o, b ++ s⟩
  obtain ⟨rest, begins, start, stop⟩ := at_iff.1 h
  obtain ⟨whole, isGap, -⟩ := gap_eq_some_iff.1 hg
  dsimp only at rest begins stop whole ho
  obtain rfl : b = g ++ (k.text ++ v) := by
    rw [rest, ← List.append_assoc, ← List.append_assoc] at whole
    simpa using List.append_cancel_right whole
  rw [rest] at isGap
  have begins' := begins.cut hr
  have gap' : IsGap g (k.text ++ (v ++ r)) := isGap.congr (begins.head_append _)
  have follows : k.text = ['/'] → (v ++ r).head? ∉ [some '/', some '*'] := by
    intro hk hm
    cases v with
    | nil =>
      cases r with
      | nil => simp at hm
      | cons c r =>
        have blank := hr c r rfl
        rcases (by simpa using hm : c = '/' ∨ c = '*') with rfl | rfl <;>
          exact absurd blank (by decide)
    | cons c v =>
      rcases (by simpa using hm : c = '/' ∨ c = '*') with rfl | rfl
      · exact h.not_stroke hk rfl
      · exact hv hk rfl
  have moved := at_of_begins (o := o) gap' begins' follows
  obtain ⟨kind, u, m⟩ := k
  dsimp only at start stop moved ⊢
  rw [ho] at start
  subst start stop
  simpa using moved

/-- A token that follows directly and starts with the character. -/
theorem At.startsWith {here next : Cursor} {k : Token} (h : At here k next) {c : Char}
    (hc : here.rest.head? = some c) (hs : c ∈ ['*', '=']) : k.StartsWith c := by
  obtain ⟨w, hw⟩ := List.head?_eq_some_iff.1 hc
  have single : isBlank c = false ∧ c ≠ '/' := by
    simp only [List.mem_cons, List.not_mem_nil, or_false] at hs
    rcases hs with rfl | rfl <;> decide
  obtain ⟨rest, begins, -, -⟩ := at_iff.1 h
  rw [afterSkip_of_gapPiece (hw ▸ gapPiece_of_head single.1 single.2), hw] at rest
  obtain ⟨d, u, hu, -, -⟩ := begins.head
  rw [hu, List.cons_append] at rest
  obtain rfl := (List.cons.inj rest).1
  have head : k.text.head? = some c := by rw [hu]; rfl
  exact ⟨begins.symbol head (by simp only [List.mem_cons, List.not_mem_nil, or_false] at hs ⊢
                                rcases hs with rfl | rfl <;> simp), head⟩

theorem Laid.exists_rest {here next : Cursor} {ks : List Token} (h : Laid here ks next) :
    ∃ w, here.rest = w ++ next.rest := by
  induction h with
  | nil => exact ⟨[], rfl⟩
  | @cons here _ _ k _ h _ ih =>
    obtain ⟨w, hw⟩ := ih
    obtain ⟨g, hg, -⟩ := exists_gap here
    refine ⟨g ++ (k.text ++ w), ?_⟩
    rw [(gap_eq_some_iff.1 hg).1, h.rest.1, hw]
    simp

/-- Tokens take as many characters as lie between the places. -/
theorem Laid.offset_add {here next : Cursor} {ks : List Token} (h : Laid here ks next) :
    here.offset + here.rest.length = next.offset + next.rest.length := by
  induction h with
  | nil => rfl
  | @cons here _ _ k _ h _ ih =>
    obtain ⟨g, hg, ho⟩ := exists_gap here
    obtain ⟨rest, -, start, stop⟩ := h.rest
    have whole := congrArg List.length (gap_eq_some_iff.1 hg).1
    rw [rest] at whole
    simp only [List.length_append] at whole
    omega

/-- The tokens stay when the source is cut off some way after them, or replaced there by a text that
starts with a blank. -/
theorem Laid.cut {ks : List Token} {o n : Nat} {b v s r : Text}
    (h : Laid ⟨o, b ++ s⟩ ks ⟨n, v ++ s⟩) (apart : ks.IsChain Token.Apart) (hr : Parts r)
    (hv : v.head? = some '*' → ∀ k ∈ ks.getLast?, '*' ∉ k.joins) :
    Laid ⟨o, b ++ r⟩ ks ⟨n, v ++ r⟩ := by
  induction ks generalizing o b with
  | nil =>
    obtain ⟨rfl, he⟩ := Cursor.mk.inj (laid_nil_iff.1 h)
    obtain rfl := List.append_cancel_right he
    exact .nil _
  | cons k ks ih =>
    obtain ⟨⟨m, t⟩, hk, hs⟩ := laid_cons_iff.1 h
    obtain ⟨w, rfl⟩ : ∃ w, t = w ++ (v ++ s) := hs.exists_rest
    rw [← List.append_assoc] at hk hs
    refine .cons (hk.cut hr fun stroke star => ?_) (ih hs apart.tail fun star l hl => ?_)
    · have joins : '*' ∈ k.joins := by
        have symbol := (at_iff.1 hk).2.1.symbol (by rw [stroke]; rfl) (by simp)
        simp [Token.joins, symbol, stroke]
      cases ks with
      | nil =>
        obtain ⟨-, he⟩ := Cursor.mk.inj (laid_nil_iff.1 hs)
        rw [← List.append_cancel_right he] at star
        exact hv star k rfl joins
      | cons l ks =>
        -- the next token would start with the star
        obtain ⟨next, hl, -⟩ := laid_cons_iff.1 hs
        refine (List.isChain_cons_cons.1 apart).1 _ joins (hl.startsWith ?_ (by simp))
        obtain ⟨x, hx⟩ := List.head?_eq_some_iff.1 star
        rw [hx]
        rfl
    · cases ks with
      | nil => cases hl
      | cons m ks => exact hv star l (by rwa [List.getLast?_cons_cons])

/-! ### A source put elsewhere -/

theorem afterSkip_moved (d : Nat) (here : Cursor) :
    afterSkip (here.moved d) = (afterSkip here).moved d := by
  obtain ⟨g, hg, ho⟩ := exists_gap here
  rw [@afterSkip_of_gap (here.moved d) _ _ hg]
  simp only [Cursor.moved, Cursor.mk.injEq, and_true]
  omega

theorem At.moved {here next : Cursor} {k : Token} (h : At here k next) (d : Nat) :
    At (here.moved d) (k.moved d) (next.moved d) := by
  obtain ⟨rest, begins, start, stop⟩ := at_iff.1 h
  refine at_iff.2 ⟨by rw [afterSkip_moved]; exact rest, begins, ?_, ?_⟩
  · rw [afterSkip_moved]
    exact congrArg (· + d) start
  · simp only [Cursor.moved, Token.moved]
    omega

theorem LaidToEnd.moved {here : Cursor} {ks : List Token} (h : LaidToEnd here ks) (d : Nat) :
    LaidToEnd (here.moved d) (ks.map (Token.moved d)) := by
  obtain ⟨next, h, hend⟩ := h
  induction h with
  | nil here =>
    refine ⟨_, .nil _, ?_⟩
    rw [afterSkip_moved]
    exact hend
  | cons h _ ih => exact laidToEnd_cons_iff.2 ⟨_, h.moved d, ih hend⟩

/-- Where the same is skipped, the same tokens lie. -/
theorem LaidToEnd.congr {here here' : Cursor} {ks : List Token} (h : LaidToEnd here ks)
    (he : afterSkip here = afterSkip here') : LaidToEnd here' ks := by
  cases ks with
  | nil =>
    obtain ⟨next, h, hend⟩ := h
    obtain rfl := laid_nil_iff.1 h
    exact ⟨_, .nil _, he ▸ hend⟩
  | cons k ks =>
    obtain ⟨there, hk, hs⟩ := laidToEnd_cons_iff.1 h
    rw [at_iff, he, ← at_iff] at hk
    exact laidToEnd_cons_iff.2 ⟨there, hk, hs⟩

/-- Tokens that lie in a source up to a place, and then those of another source that is put on a new
line there. -/
theorem laidToEnd_splice {o n : Nat} {b v s x : Text} {ks ls : List Token}
    (h : Laid ⟨o, b ++ s⟩ ks ⟨n, v ++ s⟩) (apart : ks.IsChain Token.Apart) (hv : IsGap v s)
    (hx : LaidToEnd (.start x) ls) :
    LaidToEnd ⟨o, b ++ '\n' :: x⟩ (ks ++ ls.map (Token.moved (o + b.length + 1))) := by
  have first := h.cut apart (Lexeme.parts_newline x) fun he => absurd (hv.head he) (by decide)
  have stop : n + v.length = o + b.length := by
    have length := h.offset_add
    simp only [List.length_append] at length
    omega
  have skipped : afterSkip ((Cursor.start x).moved (o + b.length + 1)) =
      afterSkip ⟨n, v ++ '\n' :: x⟩ := by
    rw [afterSkip_append_newline hv]
    simp only [Cursor.moved, Cursor.start, stop, Nat.zero_add]
  obtain ⟨next, hl, hend⟩ := (hx.moved (o + b.length + 1)).congr skipped
  exact ⟨next, first.append hl, hend⟩

end Grammar

end SolidScript
