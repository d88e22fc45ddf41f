import SolidScript.Grammar.Match
import SolidScript.Token.Gap

/-!
# Lexical — gaps

The grammar skips blanks and then comments, each with the blanks after it; the tokens skip pieces,
each a run of blanks or a comment.  The two end at the same place (`skip_eq_gap`), and nothing can
be skipped there (`gapPiece_of_gap`).
-/

namespace SolidScript.Grammar
open Text (isBlank)
open Reader

/-- A comment and the blanks after it. -/
def commentAndBlanks : Reader := .andThen Lexeme.comment (.all isBlank)

theorem splits_commentAndBlanks : commentAndBlanks.Splits :=
  .andThen Lexeme.splits_comment (.all _)

theorem takes_commentAndBlanks : commentAndBlanks.Takes := .andThen_left Lexeme.takes_comment

theorem splits_gapPiece : gapPiece.Splits := .orElse (.some1 _) Lexeme.splits_comment

theorem takes_gapPiece : gapPiece.Takes := .orElse (.some1 _) Lexeme.takes_comment

theorem many_isSome (a : Reader) (t : Text) : ∃ u r, many a t = some (u, r) := by
  obtain ⟨⟨u, r⟩, h⟩ := Option.isSome_iff_exists.1 (again_isSome a t t)
  exact ⟨u, r, h⟩

/-- Past the blanks, both go on with a comment, if there is one. -/
theorem many_comments_eq_gap {t : Text} (ht : stops isBlank t = true) :
    many commentAndBlanks t = gap t := by
  have blank : some1 isBlank t = none := some1_of_stops ht
  cases hc : Lexeme.comment t with
  | none =>
    have left : commentAndBlanks t = none := by simp [commentAndBlanks, andThen, hc]
    have right : gapPiece t = none := by simp [gapPiece, orElse, blank, hc]
    rw [gap, many_of_none left, many_of_none right]
  | some o =>
    obtain ⟨u, r⟩ := o
    obtain ⟨v, s, rfl, hv, hs⟩ := exists_run isBlank r
    have left : commentAndBlanks t = some (u ++ v, s) := by
      simp [commentAndBlanks, andThen, hc, all_append hv hs]
    have right : gapPiece t = some (u, v ++ s) := by simp [gapPiece, orElse, blank, hc]
    have shorter : s.length < t.length := by
      rw [← splits_commentAndBlanks.append_eq left, List.length_append]
      exact Nat.lt_add_of_pos_left (List.length_pos_iff.2 (takes_commentAndBlanks.ne_nil left))
    have ih := many_comments_eq_gap hs
    rw [many_of_some splits_commentAndBlanks takes_commentAndBlanks left, ih, gap,
      many_of_some splits_gapPiece takes_gapPiece right]
    by_cases hn : v = []
    · subst hn
      simp
    · have piece : gapPiece (v ++ s) = some (v, s) := by
        simp [gapPiece, orElse, some1_append hn hv hs]
      rw [many_of_some splits_gapPiece takes_gapPiece piece]
      cases many gapPiece s <;> simp
termination_by t.length

/-- The grammar and the tokens skip the same. -/
theorem skip_eq_gap (t : Text) : skip t = gap t := by
  obtain ⟨u, r, rfl, hu, hr⟩ := exists_run isBlank t
  have rest := many_comments_eq_gap hr
  obtain ⟨v, s, hv⟩ := many_isSome commentAndBlanks r
  have left : skip (u ++ r) = some (u ++ v, s) := by
    have hv' : many (andThen Lexeme.comment (all isBlank)) r = some (v, s) := hv
    simp [skip, andThen, all_append hu hr, hv']
  rw [left]
  by_cases hn : u = []
  · subst hn
    rw [List.nil_append v, List.nil_append r, ← rest, hv]
  · have piece : gapPiece (u ++ r) = some (u, r) := by
      simp [gapPiece, orElse, some1_append hn hu hr]
    rw [gap, many_of_some splits_gapPiece takes_gapPiece piece, ← gap, ← rest, hv]
    rfl

/-- Skipping goes to the end of the gap. -/
theorem afterSkip_eq_afterGap (here : Cursor) : afterSkip here = here.afterGap := by
  have read : here.read skip = here.read gap := congrArg here.read (funext skip_eq_gap)
  cases gap : here.read gap <;> simp [afterSkip, Cursor.afterGap, read, gap]

/-- Where no piece of a gap is nothing is skipped. -/
theorem afterSkip_of_gapPiece {here : Cursor} (h : gapPiece here.rest = none) :
    afterSkip here = here := by
  unfold afterSkip Cursor.read
  rw [skip_eq_gap, gap, many_of_none h]
  rfl

/-- No gap starts with a character that is neither blank nor a stroke. -/
theorem gapPiece_of_head {c : Char} {t : Text} (hb : isBlank c = false) (hc : c ≠ '/') :
    gapPiece (c :: t) = none := by
  have blank : some1 isBlank (c :: t) = none := some1_of_stops (by simp [stops, hb])
  simp [gapPiece, orElse, blank, Lexeme.comment, Lexeme.lineComment, Lexeme.blockComment, andThen,
    word, hc.symm]

/-- Where a gap ends nothing more can be skipped. -/
theorem gapPiece_of_gap {t u r : Text} (h : gap t = some (u, r)) : gapPiece r = none := by
  cases hp : gapPiece t with
  | none =>
    rw [gap, many_of_none hp] at h
    cases h
    exact hp
  | some o =>
    obtain ⟨v, s⟩ := o
    have shorter : s.length < t.length := by
      rw [← splits_gapPiece.append_eq hp, List.length_append]
      exact Nat.lt_add_of_pos_left (List.length_pos_iff.2 (takes_gapPiece.ne_nil hp))
    rw [gap, many_of_some splits_gapPiece takes_gapPiece hp] at h
    obtain ⟨⟨w, r'⟩, hw, he⟩ := Option.map_eq_some_iff.1 h
    cases he
    exact gapPiece_of_gap hw
termination_by t.length

/-! ### What a gap is -/

/-- A blank before a gap belongs to it. -/
theorem gap_cons_of_isBlank {c : Char} (hc : isBlank c = true) (t : Text) :
    gap (c :: t) = (gap t).map fun (u, r) => (c :: u, r) := by
  obtain ⟨b, s, rfl, hb, hs⟩ := exists_run isBlank t
  have piece {v : Text} (hn : v ≠ []) (hv : ∀ d ∈ v, isBlank d = true) :
      gap (v ++ s) = (gap s).map fun (u, r) => (v ++ u, r) :=
    many_of_some splits_gapPiece takes_gapPiece
      (by simp [gapPiece, orElse, some1_append hn hv hs])
  have whole : gap (c :: (b ++ s)) = (gap s).map fun (u, r) => (c :: b ++ u, r) :=
    piece (v := c :: b) (by simp) (List.forall_mem_cons.2 ⟨hc, hb⟩)
  by_cases hn : b = []
  · subst hn
    exact whole
  · rw [whole, piece hn hb, Option.map_map]
    rfl

/-- What is read through the first close. -/
theorem throughClose_eq_some_iff {t u r : Text} :
    Lexeme.throughClose t = some (u, r) ↔
      ∃ body, u = body ++ ['*', '/'] ∧ t = body ++ '*' :: '/' :: r ∧
        ∀ v w, body ++ ['*', '/'] = v ++ '*' :: '/' :: w → w = [] := by
  fun_induction Lexeme.throughClose t generalizing u with
  | case1 => simp
  | case2 s =>
    simp only [Option.some.injEq, Prod.mk.injEq]
    constructor
    · rintro ⟨rfl, rfl⟩
      refine ⟨[], rfl, rfl, fun v w h => ?_⟩
      have := congrArg List.length h
      simp only [List.length_append, List.length_cons, List.length_nil] at this
      exact List.eq_nil_of_length_eq_zero (by omega)
    · rintro ⟨body, rfl, he, h⟩
      -- the text starts with a close, which is that of the body
      rcases body with _ | ⟨c, _ | ⟨d, body⟩⟩
      · simpa using he
      · simp at he
      · obtain ⟨rfl, rfl, -⟩ : '*' = c ∧ '/' = d ∧ _ := by simpa using he
        exact absurd (h [] _ rfl) (by simp)
  | case3 c s hn ih =>
    simp only [Option.map_eq_some_iff, Prod.exists, Prod.mk.injEq]
    constructor
    · rintro ⟨v, w, hv, rfl, rfl⟩
      obtain ⟨body, rfl, rfl, h⟩ := ih.1 hv
      refine ⟨c :: body, rfl, rfl, fun v w he => ?_⟩
      cases v with
      | cons d v => exact h v w (List.cons.inj he).2
      | nil =>
        rcases body with _ | ⟨d, body⟩
        · simp at he
        · obtain ⟨rfl, rfl, -⟩ : c = '*' ∧ d = '/' ∧ _ := by simpa using he
          exact (hn _ rfl rfl).elim
    · rintro ⟨body, rfl, he, h⟩
      cases body with
      | nil => exact (hn _ (List.cons.inj he).1 (List.cons.inj he).2).elim
      | cons d body =>
        obtain ⟨rfl, rfl⟩ := List.cons.inj he
        exact ⟨_, r, ih.2 ⟨body, rfl, rfl, fun v w hw => h (c :: v) w (by simp [hw])⟩, rfl, rfl⟩

/-- Comments up to the end of their line. -/
theorem lineComment_eq_some_iff {t u r : Text} :
    Lexeme.lineComment t = some (u, r) ↔
      ∃ body, u = '/' :: '/' :: body ∧ t = u ++ r ∧ '\n' ∉ body ∧
        r.head? ∈ [none, some '\n'] := by
  have ends : r.head? ∈ [none, some '\n'] ↔ stops (· != '\n') r = true := by
    cases r <;> simp [stops]
  rw [Lexeme.lineComment, andThen_eq_some_iff]
  constructor
  · rintro ⟨w, m, body, hw, hb, rfl⟩
    obtain ⟨rfl, rfl⟩ := word_eq_some_iff.1 hw
    obtain ⟨b, s, rfl, hin, hs⟩ := exists_run (· != '\n') m
    rw [all_append hin hs] at hb
    cases hb
    exact ⟨body, rfl, rfl, fun hm => by simpa using hin '\n' hm, ends.2 hs⟩
  · rintro ⟨body, rfl, rfl, hb, hr⟩
    have inside : ∀ c ∈ body, (c != '\n') = true := fun c hc => by
      simpa using (fun he => hb (he ▸ hc) : c ≠ '\n')
    exact ⟨['/', '/'], body ++ r, body, word_eq_some_iff.2 ⟨rfl, rfl⟩,
      all_append inside (ends.1 hr), rfl⟩

/-- Comments up to their close. -/
theorem blockComment_eq_some_iff {t u r : Text} :
    Lexeme.blockComment t = some (u, r) ↔
      ∃ body, u = '/' :: '*' :: (body ++ ['*', '/']) ∧ t = u ++ r ∧
        ∀ v w, body ++ ['*', '/'] = v ++ '*' :: '/' :: w → w = [] := by
  rw [Lexeme.blockComment, andThen_eq_some_iff]
  constructor
  · rintro ⟨w, m, v, hw, hv, rfl⟩
    obtain ⟨rfl, rfl⟩ := word_eq_some_iff.1 hw
    obtain ⟨body, rfl, rfl, h⟩ := throughClose_eq_some_iff.1 hv
    exact ⟨body, rfl, by simp, h⟩
  · rintro ⟨body, rfl, rfl, h⟩
    exact ⟨['/', '*'], body ++ '*' :: '/' :: r, _, word_eq_some_iff.2 ⟨rfl, by simp⟩,
      throughClose_eq_some_iff.2 ⟨body, rfl, rfl, h⟩, rfl⟩

/-- A comment is one to the end of its line or one with an end of its own. -/
theorem comment_eq_some_iff {t : Text} {o : Text × Text} :
    Lexeme.comment t = some o ↔ Lexeme.lineComment t = some o ∨ Lexeme.blockComment t = some o := by
  obtain ⟨u, r⟩ := o
  rw [Lexeme.comment, orElse]
  cases hl : Lexeme.lineComment t with
  | none => simp
  | some o =>
    obtain ⟨v, s⟩ := o
    obtain ⟨body, rfl, rfl, -⟩ := lineComment_eq_some_iff.1 hl
    have block : Lexeme.blockComment ('/' :: '/' :: body ++ s) = none := by
      simp [Lexeme.blockComment, andThen, word]
    rw [block]
    simp

/-- Blanks before a gap make a gap. -/
theorem isGap_append_of_blanks {b g r : Text} (hb : ∀ c ∈ b, isBlank c = true) (h : IsGap g r) :
    IsGap (b ++ g) r := by
  induction b with
  | nil => exact h
  | cons c b ih =>
    exact .blank (hb c List.mem_cons_self) (ih fun d hd => hb d (.tail _ hd))

/-- What is read as a gap is one. -/
theorem isGap_of_gap {t g r : Text} (h : gap t = some (g, r)) : IsGap g r := by
  cases hp : gapPiece t with
  | none =>
    rw [gap, many_of_none hp] at h
    cases h
    exact .nil _
  | some o =>
    obtain ⟨v, s⟩ := o
    have shorter : s.length < t.length := by
      rw [← splits_gapPiece.append_eq hp, List.length_append]
      exact Nat.lt_add_of_pos_left (List.length_pos_iff.2 (takes_gapPiece.ne_nil hp))
    rw [gap, many_of_some splits_gapPiece takes_gapPiece hp] at h
    obtain ⟨⟨w, m⟩, hw, he⟩ := Option.map_eq_some_iff.1 h
    cases he
    have rest := isGap_of_gap hw
    have whole : s = w ++ r := (splits_gap.append_eq hw).symm
    unfold gapPiece orElse at hp
    split at hp
    · rcases comment_eq_some_iff.1 hp with hp | hp
      · obtain ⟨body, rfl, -, hb, he⟩ := lineComment_eq_some_iff.1 hp
        exact .line hb (whole ▸ he) rest
      · obtain ⟨body, rfl, -, hb⟩ := blockComment_eq_some_iff.1 hp
        simpa using IsGap.block hb rest
    · rename_i hs
      cases hp
      exact isGap_append_of_blanks (some1_eq_some_iff.1 hs).2.2.1 rest
termination_by t.length

/-- A gap is blanks and comments, and ends where nothing more can be skipped. -/
theorem gap_eq_some_iff {t g r : Text} :
    gap t = some (g, r) ↔ t = g ++ r ∧ IsGap g r ∧ gapPiece r = none := by
  have piece {u s : Text} (h : Lexeme.comment (u ++ s) = some (u, s)) :
      gap (u ++ s) = (gap s).map fun (v, m) => (u ++ v, m) := by
    refine many_of_some splits_gapPiece takes_gapPiece ?_
    have blank : some1 isBlank (u ++ s) = none := by
      rcases comment_eq_some_iff.1 h with h | h
      · obtain ⟨body, rfl, -⟩ := lineComment_eq_some_iff.1 h
        exact some1_of_stops (by simp only [List.cons_append, stops]; decide)
      · obtain ⟨body, rfl, -⟩ := blockComment_eq_some_iff.1 h
        exact some1_of_stops (by simp only [List.cons_append, stops]; decide)
    rw [gapPiece, orElse, blank]
    exact h
  constructor
  · exact fun h => ⟨(splits_gap.append_eq h).symm, isGap_of_gap h, gapPiece_of_gap h⟩
  · rintro ⟨rfl, h, hr⟩
    induction h with
    | nil => exact many_of_none hr
    | blank hc _ ih => rw [List.cons_append, gap_cons_of_isBlank hc, ih hr]; rfl
    | @line body g r hb he _ ih =>
      have read := lineComment_eq_some_iff.2 ⟨body, rfl, rfl, hb, he⟩
      have := piece (comment_eq_some_iff.2 (.inl read))
      rw [ih hr] at this
      simpa using this
    | @block body g r hb _ ih =>
      have read := (blockComment_eq_some_iff (r := g ++ r)).2 ⟨body, rfl, rfl, hb⟩
      have := piece (comment_eq_some_iff.2 (.inr read))
      rw [ih hr] at this
      simpa using this

end SolidScript.Grammar

namespace SolidScript.IsGap

/-- A gap starts with a blank or a stroke. -/
theorem head {g r : Text} (h : IsGap g r) {c : Char} (hc : g.head? = some c) :
    Text.isBlank c = true ∨ c = '/' := by
  cases h with
  | nil => cases hc
  | blank hb => exact .inl (Option.some.inj hc ▸ hb)
  | line => exact .inr (Option.some.inj hc).symm
  | block => exact .inr (Option.some.inj hc).symm

/-- A gap stays a gap when what follows it is changed, unless that makes a comment longer. -/
theorem congr {g r s : Text} (h : IsGap g r) (hr : r.head? ∉ [none, some '\n']) :
    IsGap g s := by
  induction h with
  | nil => exact .nil _
  | blank hc _ ih => exact .blank hc (ih hr)
  | @line body g r hb he _ ih =>
    cases g with
    | nil => exact absurd he hr
    | cons c g => exact .line hb he (ih hr)
  | block hb _ ih => exact .block hb (ih hr)

/-- Gaps one after the other are a gap, if the second ends the line. -/
theorem append {v w r s : Text} (h : IsGap v s) (k : IsGap w r)
    (hw : (w ++ r).head? ∈ [none, some '\n']) : IsGap (v ++ w) r := by
  induction h with
  | nil => exact k
  | blank hc _ ih => exact .blank hc ih
  | @line body g s hb he _ ih =>
    have ends : (g ++ w ++ r).head? ∈ [none, some '\n'] := by
      cases g with
      | nil => exact hw
      | cons c g => exact he
    simpa using IsGap.line hb ends ih
  | @block body g s hb _ ih => simpa using IsGap.block hb ih

/-- A gap and the gap that follows it. -/
theorem trans {v w r : Text} (h : IsGap v (w ++ r)) (k : IsGap w r) : IsGap (v ++ w) r := by
  generalize hs : w ++ r = s at h
  induction h with
  | nil => exact k
  | blank hc _ ih => exact .blank hc (ih hs)
  | @line body g s hb he _ ih =>
    subst hs
    simpa using IsGap.line hb (by simpa using he) (ih rfl)
  | @block body g s hb _ ih => simpa using IsGap.block hb (ih hs)

end SolidScript.IsGap

namespace SolidScript.Grammar
open Text (isBlank)

/-- Skipping goes behind the gap that is read. -/
theorem afterSkip_of_gap {here : Cursor} {g r : Text} (h : gap here.rest = some (g, r)) :
    afterSkip here = ⟨here.offset + g.length, r⟩ := by
  simp only [afterSkip_eq_afterGap, Cursor.afterGap, Cursor.read, h, Option.map_some]

/-- What is skipped at a place. -/
theorem exists_gap (here : Cursor) :
    ∃ g, gap here.rest = some (g, (afterSkip here).rest) ∧
      (afterSkip here).offset = here.offset + g.length := by
  obtain ⟨g, r, h⟩ := many_isSome gapPiece here.rest
  have after := afterSkip_of_gap (show gap here.rest = _ from h)
  exact ⟨g, by rw [after]; exact h, by rw [after]⟩

/-- Behind a gap and a line feed the same is skipped as at what follows. -/
theorem afterSkip_append_newline {o : Nat} {v s : Text} (h : IsGap v s) (x : Text) :
    afterSkip ⟨o, v ++ '\n' :: x⟩ = afterSkip ⟨o + v.length + 1, x⟩ := by
  obtain ⟨g, hg, ho⟩ := exists_gap ⟨o + v.length + 1, x⟩
  obtain ⟨he, hgap, hn⟩ := gap_eq_some_iff.1 hg
  generalize hafter : afterSkip ⟨o + v.length + 1, x⟩ = last at *
  dsimp only at he ho
  have whole : IsGap (v ++ '\n' :: g) last.rest := h.append (.blank (by decide) hgap) (by simp)
  have skip := gap_eq_some_iff.2 ⟨show v ++ '\n' :: x = _ by rw [he]; simp, whole, hn⟩
  rw [@afterSkip_of_gap ⟨o, v ++ '\n' :: x⟩ _ _ skip]
  obtain ⟨n, r⟩ := last
  simp only [Cursor.mk.injEq, and_true, List.length_append, List.length_cons]
  dsimp only at ho
  omega

/-! ### What a source starts with -/

/-- Comments up to the ends of their lines, with the blanks after each, are a gap. -/
theorem isGap_of_lines {t u r : Text}
    (h : Reader.many (.andThen Lexeme.lineComment (.all isBlank)) t = some (u, r)) :
    IsGap u r := by
  have splits : (Reader.andThen Lexeme.lineComment (.all isBlank)).Splits :=
    .andThen (.andThen (.word _) (.all _)) (.all _)
  have takes : (Reader.andThen Lexeme.lineComment (.all isBlank)).Takes :=
    .andThen_left (.andThen_left (.word (by decide)))
  cases hp : Reader.andThen Lexeme.lineComment (.all isBlank) t with
  | none =>
    rw [Reader.many_of_none hp] at h
    cases h
    exact .nil _
  | some o =>
    obtain ⟨v, s⟩ := o
    have shorter : s.length < t.length := by
      rw [← splits.append_eq hp, List.length_append]
      exact Nat.lt_add_of_pos_left (List.length_pos_iff.2 (takes.ne_nil hp))
    rw [Reader.many_of_some splits takes hp] at h
    obtain ⟨⟨w, m⟩, hw, he⟩ := Option.map_eq_some_iff.1 h
    cases he
    have rest := isGap_of_lines hw
    obtain ⟨c, x, b, hc, hb, rfl⟩ := Reader.andThen_eq_some_iff.1 hp
    obtain ⟨body, rfl, -, hbody, hend⟩ := lineComment_eq_some_iff.1 hc
    have whole : b ++ w ++ r = x := by
      rw [List.append_assoc, splits.many.append_eq hw, (Reader.Splits.all _).append_eq hb]
    cases hb
    have blanks := isGap_append_of_blanks (b := x.takeWhile isBlank)
      (fun d hd => List.all_eq_true.1 List.all_takeWhile d hd) rest
    simpa using IsGap.line hbody (by rw [whole]; exact hend) blanks
termination_by t.length

theorem splits_preface : preface.Splits :=
  .andThen (.all _) (.many (.andThen (.andThen (.word _) (.all _)) (.all _)))

/-- What a source starts with is a gap up to the place of the first record. -/
theorem isGap_preface {source u r : Text} (h : preface source = some (u, r)) : IsGap u r := by
  obtain ⟨b, x, v, hb, hv, rfl⟩ := Reader.andThen_eq_some_iff.1 h
  cases hb
  exact isGap_append_of_blanks (fun d hd => List.all_eq_true.1 List.all_takeWhile d hd)
    (isGap_of_lines hv)

/-- The first record is made before the first token. -/
theorem firstRecord_offset_le (source : Text) :
    (firstRecord source).offset ≤ (afterSkip (.start source)).offset := by
  unfold firstRecord
  cases hp : preface source with
  | none => simp [Cursor.read, Cursor.start, hp]
  | some o =>
    obtain ⟨u, r⟩ := o
    obtain ⟨g, hg, -⟩ := exists_gap ⟨u.length, r⟩
    obtain ⟨whole, isGap, stops⟩ := gap_eq_some_iff.1 hg
    generalize (afterSkip ⟨u.length, r⟩).rest = s at *
    obtain rfl : r = g ++ s := whole
    have split := splits_preface.append_eq hp
    have skip : gap source = some (u ++ g, s) :=
      gap_eq_some_iff.2 ⟨by simp [← split], (isGap_preface hp).trans isGap, stops⟩
    rw [@afterSkip_of_gap (.start source) _ _ skip]
    simp [Cursor.read, Cursor.start, hp]

end SolidScript.Grammar
