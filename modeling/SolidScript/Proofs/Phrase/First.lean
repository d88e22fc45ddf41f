import SolidScript.Proofs.Phrase.Laid

/-!
# Phrase — what a rule can start with

The token at a place decides which rules can match there.  Every rule that takes something starts
with one of a few terminals (`Piece.firsts`), and where the token is none that these stand for, the
rule fails.

* `Terminal.apart`: no token is one that both terminals stand for.
* `Looks`: the token at a place is one that some of these terminals stand for.
* `outcome_none_of_looks`: where the token is apart from all that a rule starts with, it fails.
-/

namespace SolidScript

/-! ### Terminals that stand for different tokens -/

namespace Terminal

/-- The class of the tokens that the terminal stands for. -/
def kind? : Terminal → Option TokenKind
  | comment | endOfInput => none
  | useFile     => some .useFile
  | includeFile => some .includeFile
  | identifier  => some .identifier
  | number      => some .number
  | string      => some .string
  | keyword _   => some .keyword
  | mark _ | period | logical | comparison | additive | multiplicative | unary | modifier =>
    some .symbol

/-- The texts of the tokens that the terminal stands for, if these are few. -/
def texts? : Terminal → Option (List Text)
  | keyword w      => some [w.spelling]
  | mark m         => some [[m.char]]
  | period         => some [['.']]
  | logical        => some [['|', '|'], ['&', '&']]
  | comparison     => some [['<', '='], ['>', '='], ['=', '='], ['!', '='], ['<'], ['>']]
  | additive       => some [['-'], ['+']]
  | multiplicative => some [['*'], ['/'], ['%']]
  | unary          => some [['-'], ['+'], ['!']]
  | modifier       => some [['*'], ['!'], ['#'], ['%']]
  | _              => none

theorem kind_of_accepts {t : Terminal} {k : Token} (h : t.Accepts k) : t.kind? = some k.kind := by
  cases t with
  | comment | endOfInput => exact h.elim
  | useFile | includeFile | identifier | number | string => exact congrArg some (Eq.symm h)
  | _ => exact congrArg some h.1.symm

/-- The terminals for references stand for references, and no others do. -/
theorem isReference_iff_of_accepts {t : Terminal} {k : Token} (h : t.Accepts k) :
    k.IsReference ↔ t = .useFile ∨ t = .includeFile := by
  have kind := kind_of_accepts h
  unfold Token.IsReference
  cases t <;> simp only [kind?, Option.some.injEq, reduceCtorEq] at kind <;> simp [← kind]

theorem text_of_accepts {t : Terminal} {k : Token} (h : t.Accepts k) {ws : List Text}
    (hw : t.texts? = some ws) : k.text ∈ ws := by
  cases t with
  | comment | endOfInput | useFile | includeFile | identifier | number | string => cases hw
  | keyword w | mark m => cases hw; rw [h.2]; exact List.mem_singleton_self _
  | period => cases hw; rw [h.2]; exact List.mem_singleton_self _
  | _ => cases hw; exact h.2

/-- No token is one that both terminals stand for. -/
def apart (t u : Terminal) : Bool :=
  t.kind? != u.kind? ||
    match t.texts?, u.texts? with
    | some ws, some vs => ws.all fun w => !vs.contains w
    | _,       _       => false

theorem not_accepts_of_apart {t u : Terminal} (h : apart t u = true) {k : Token}
    (ht : t.Accepts k) : ¬ u.Accepts k := by
  intro hu
  have kinds : t.kind? = u.kind? := (kind_of_accepts ht).trans (kind_of_accepts hu).symm
  simp only [apart, kinds, bne_self_eq_false, Bool.false_or] at h
  split at h
  · rename_i ws vs hws hvs
    have := List.all_eq_true.1 h _ (text_of_accepts ht hws)
    simp [text_of_accepts hu hvs] at this
  · cases h

end Terminal

/-! ### What a rule starts with -/

/-- The pieces that a match that takes something may start with. -/
def Production.leading : Production → List Piece
  | .sequence ps => ps.take 1
  | .choice ps   => ps
  | .chain p _   => [p]
  | _            => []

namespace Piece

/-- What the piece starts with, so many rules down. -/
def firstsWithin : Nat → Piece → List Terminal
  | _,     term t => [t]
  | 0,     rule _ => []
  | n + 1, rule r => r.production.leading.flatMap (firstsWithin n)

/-- What the piece starts with. -/
def firsts (p : Piece) : List Terminal := firstsWithin p.rank p

end Piece

theorem Rule.leading_takes (r : Rule) (hr : r.nullable = false) :
    ∀ p ∈ r.production.leading, p.nullable = false ∧ p.rank < r.rank := by
  revert hr
  cases r <;> decide

namespace Grammar
open Lexeme (isPlain)

/-- A rule that takes something matches only where one of its leading pieces does. -/
theorem leading_of_outcome {r : Rule} (hr : r.nullable = false) {here : Cursor}
    (h : outcome (.rule r) here ≠ none) : ∃ p ∈ r.production.leading, outcome p here ≠ none := by
  have hp := r.nullable_production
  rw [outcome_rule, Ne, Option.map_eq_none_iff] at h
  rw [hr] at hp
  cases hq : r.production with
  | sequence ps =>
    rw [hq] at h hp
    cases ps with
    | nil => cases hp
    | cons p ps =>
      refine ⟨p, List.mem_cons_self, fun hn => h ?_⟩
      simp [Run.expand, Run.inOrder, hn]
  | choice ps =>
    rw [hq] at h
    have some_matches := mt Run.firstOf_eq_none_iff.2 h
    rw [Classical.not_forall] at some_matches
    obtain ⟨p, hp⟩ := some_matches
    rw [Classical.not_imp] at hp
    exact ⟨p, hp.1, hp.2⟩
  | chain p s =>
    rw [hq] at h
    refine ⟨p, List.mem_cons_self, fun hn => h ?_⟩
    simp [Run.expand, hn]
  | maybe p => rw [hq] at hp; cases hp
  | many p => rw [hq] at hp; cases hp
  | notAhead t => rw [hq] at hp; cases hp

theorem firstsWithin_of_outcome {here : Cursor} :
    ∀ (n : Nat) {p : Piece}, p.rank ≤ n → p.nullable = false → outcome p here ≠ none →
      ∃ t ∈ p.firstsWithin n, Run.terminal t here ≠ none
  | n, .term t, _, _, h => ⟨t, by cases n <;> exact List.mem_singleton_self _, h⟩
  | 0, .rule r, hn, _, _ => absurd hn (by cases r <;> decide)
  | n + 1, .rule r, hn, hr, h => by
      obtain ⟨p, hp, hm⟩ := leading_of_outcome hr h
      obtain ⟨takes, lower⟩ := r.leading_takes hr p hp
      have lower : p.rank ≤ n := Nat.le_of_lt_succ (Nat.lt_of_lt_of_le lower hn)
      obtain ⟨t, ht, hm⟩ := firstsWithin_of_outcome n lower takes hm
      exact ⟨t, List.mem_flatMap.2 ⟨p, hp, ht⟩, hm⟩

/-- A rule that takes something matches only where a terminal does that it starts with. -/
theorem firsts_of_outcome {p : Piece} (hp : p.nullable = false) {here : Cursor}
    (h : outcome p here ≠ none) : ∃ t ∈ p.firsts, Run.terminal t here ≠ none :=
  firstsWithin_of_outcome _ (Nat.le_refl _) hp h

/-! ### Looking at a token -/

/-- The token of a terminal that is no reference is the one at the place. -/
theorem At.tokenAt {here next : Cursor} {k : Token} (h : At here k next) {t : Terminal}
    (ht : t.Accepts k) (hr : t ∉ [.useFile, .includeFile]) :
    Grammar.tokenAt here = some (k, next) := by
  cases h with
  | plain h => exact h
  | reference _ hk =>
    have kind := Terminal.kind_of_accepts ht
    exfalso
    rcases hk with hk | hk <;> rw [hk] at kind <;> cases t <;> simp [Terminal.kind?] at kind hr

/-- The terminals that match nothing but the front of a token. -/
def looksAtToken (t : Terminal) : Bool := isPlain t || t == .modifier || t == .mark .assign

/-- A pair of characters that is a symbol is the token. -/
theorem tokenAt_of_pair {here : Cursor} {c : Char} {r : Text}
    (hr : (afterSkip here).rest = c :: '=' :: r) (hc : c = '=' ∨ c = '!') :
    ∃ k next, tokenAt here = some (k, next) ∧ Terminal.comparison.Accepts k ∧
      k.text = [c, '='] := by
  have pair : [c, '='] ∈ Lexeme.pairs := by rcases hc with rfl | rfl <;> decide
  have other : Text.isDigit c = false ∧ Lexeme.startsName c = false ∧ c ≠ '"' ∧ c ≠ '.' := by
    rcases hc with rfl | rfl <;> decide
  obtain ⟨hd, hs, hq, hp⟩ := other
  refine ⟨⟨.symbol, [c, '='], (afterSkip here).offset⟩, ⟨(afterSkip here).offset + 2, r⟩, ?_,
    ⟨rfl, ?_⟩, rfl⟩
  · rw [tokenAt, hr, Lexeme.front_of_other hd hs hq fun h => absurd h hp,
      Lexeme.symbol_of_pair r pair]
    rfl
  · rcases hc with rfl | rfl <;> simp

/-- What a terminal matches is the token at the place, or the front of a comparison there. -/
theorem token_of_terminal {t : Terminal} (ht : looksAtToken t = true) {here : Cursor}
    (h : Run.terminal t here ≠ none) :
    ∃ k next, tokenAt here = some (k, next) ∧
      (t.Accepts k ∨ isPlain t = false ∧ Terminal.comparison.Accepts k) := by
  obtain ⟨⟨ts, there⟩, h⟩ := Option.ne_none_iff_exists'.1 h
  have single {c : Char} {r : Text} (hr : (afterSkip here).rest = c :: r)
      (hc : c ∈ ['=', '*', '!', '#', '%']) (accepts : ∀ n, t.Accepts ⟨.symbol, [c], n⟩)
      (plain : isPlain t = false) :
      ∃ k next, tokenAt here = some (k, next) ∧
        (t.Accepts k ∨ isPlain t = false ∧ Terminal.comparison.Accepts k) := by
    by_cases pair : c ∈ ['=', '!'] ∧ r.head? = some '='
    · obtain ⟨hc, hh⟩ := pair
      obtain ⟨s, rfl⟩ : ∃ s, r = '=' :: s := by
        cases r with
        | nil => cases hh
        | cons d s => exact ⟨s, by rw [Option.some.inj hh]⟩
      obtain ⟨k, next, hk, ha, -⟩ := tokenAt_of_pair hr (by simpa using hc)
      exact ⟨k, next, hk, .inr ⟨plain, ha⟩⟩
    · have hk := (at_of_single hr hc fun h hh => pair ⟨h, hh⟩).tokenAt (accepts _) (by
        rintro hm
        simp only [List.mem_cons, List.not_mem_nil, or_false] at hm
        have symbol := accepts 0
        rcases hm with rfl | rfl <;> cases symbol)
      exact ⟨_, _, hk, .inl (accepts _)⟩
  simp only [looksAtToken, Bool.or_eq_true, beq_iff_eq] at ht
  rcases ht with (hp | rfl) | rfl
  · obtain ⟨k, hk, ha, -⟩ := (terminal_eq_some_iff hp).1 h
    exact ⟨k, there, hk, .inl ha⟩
  · obtain ⟨c, r, hc, hr, -, -⟩ := terminal_modifier_eq_some_iff.1 h
    exact single hr (List.mem_cons_of_mem _ hc) (fun _ => ⟨rfl, by simpa using hc⟩) rfl
  · obtain ⟨r, hr, -, -⟩ := terminal_mark_eq_some_iff.1 h
    exact single hr (by decide) (fun _ => ⟨rfl, rfl⟩) rfl

/-- The token at the place is one that some of the terminals stand for. -/
def Looks (here : Cursor) (ts : List Terminal) : Prop :=
  ∃ k next, At here k next ∧ ∃ t ∈ ts, t.Accepts k

theorem Looks.mono {here : Cursor} {ts us : List Terminal} (h : Looks here ts) (hs : ts ⊆ us) :
    Looks here us := by
  obtain ⟨k, next, hk, t, ht, ha⟩ := h
  exact ⟨k, next, hk, t, hs ht, ha⟩

theorem At.looks {here next : Cursor} {k : Token} (h : At here k next) {t : Terminal}
    (ht : t.Accepts k) : Looks here [t] := ⟨k, next, h, t, List.mem_singleton_self _, ht⟩

/-- The second terminal does not match at a token of the first. -/
def excludes (t u : Terminal) : Bool :=
  !([.useFile, .includeFile].contains t) && looksAtToken u && t.apart u &&
    (isPlain u || t.apart .comparison)

theorem terminal_none_of_looks {here : Cursor} {ts : List Terminal} (h : Looks here ts)
    {u : Terminal} (hu : (ts.all fun t => excludes t u) = true) : Run.terminal u here = none := by
  obtain ⟨k, next, hk, t, ht, ha⟩ := h
  have := List.all_eq_true.1 hu t ht
  simp only [excludes, Bool.and_eq_true, Bool.or_eq_true, Bool.not_eq_true',
    List.contains_eq_mem, decide_eq_false_iff_not] at this
  obtain ⟨⟨⟨hr, hl⟩, apart⟩, comparison⟩ := this
  cases hm : Run.terminal u here with
  | none => rfl
  | some o =>
    obtain ⟨l, m, hl, ha'⟩ := token_of_terminal hl (by rw [hm]; simp)
    rw [hk.tokenAt ha hr] at hl
    cases hl
    rcases ha' with ha' | ⟨plain, ha'⟩
    · exact absurd ha' (Terminal.not_accepts_of_apart apart ha)
    · rcases comparison with hp | apart'
      · rw [plain] at hp; cases hp
      · exact absurd ha' (Terminal.not_accepts_of_apart apart' ha)

/-- Where the token is none that a piece starts with, the piece fails. -/
theorem outcome_none_of_looks {here : Cursor} {ts : List Terminal} (h : Looks here ts) {p : Piece}
    (hp : p.nullable = false) (hf : (p.firsts.all fun u => ts.all fun t => excludes t u) = true) :
    outcome p here = none := by
  cases hm : outcome p here with
  | none => rfl
  | some o =>
    obtain ⟨u, hu, hne⟩ := firsts_of_outcome hp (by rw [hm]; simp)
    exact absurd (terminal_none_of_looks h (List.all_eq_true.1 hf u hu)) hne

end Grammar

end SolidScript
