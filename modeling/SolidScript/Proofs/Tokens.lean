import SolidScript.Proofs.Lexical.Longest
import SolidScript.Proofs.Lexical.Token
import SolidScript.Token.Lexer

/-!
# Lexers — the longest token, and the terminals beside it

The classes of tokens are sets of texts.  A lexer returns the longest front of what lies ahead that
belongs to any of them, whichever way its readers look for it; and the terminals of the grammar,
which look at the source and not at its tokens, match where a lexer reads their token and end where
it ends.

* `next_longest`: a lexer is stuck where no front belongs to a class, and else returns the longest
  that does, with the first of its classes; a name that is a keyword is one.
* `terminal_iff_next`: the grammar and a lexer skip to the same place, and there a number, a
  keyword, a string and a point are matched as the lexer reads them, and a name as it is read by a
  lexer that knows no references to files.
-/

namespace SolidScript
open Grammar
open Token (longest longestAmong reclassify)

/-! ### The longest token -/

namespace Spelling

/-- The text is the longest front, other than nothing, that belongs to a class of tokens. -/
structure IsLongest (whole t : Text) : Prop where
  front : t <+: whole
  ne_nil : t ≠ []
  belongs : ∃ kind, Belongs kind t
  longest : ∀ u, u <+: whole → (∃ kind, Belongs kind u) → u.length ≤ t.length

theorem spelled_classes_iff {t : Text} : Spelled classes t ↔ ∃ kind, Belongs kind t := by
  constructor
  · rintro ⟨⟨kind, p⟩, hp, h⟩
    exact ⟨kind, p, hp, h⟩
  · rintro ⟨kind, p, hp, h⟩
    exact ⟨(kind, p), hp, h⟩

end Spelling

namespace Lexer
open Spelling (Belongs IsFirst IsLongest)

/-- The source from where the next token is looked for. -/
def ahead (l : Lexer) : Text := l.source.drop l.here.afterGap.offset

theorem rest_eq_ahead {l : Lexer} (inside : l.here.In l.source) :
    (afterSkip l.here).rest = l.ahead := by
  rw [afterSkip_eq_afterGap]
  exact (Cursor.afterGap_in inside).2

theorem next_eq_ok_some_iff {l : Lexer} {k : Token} :
    l.next.1 = .ok (some k) ↔ ∃ there, Token.next l.here = .token k there := by
  unfold next
  cases Token.next l.here <;> simp

/-- A lexer that is stuck found nothing, and one that returns a token found the best. -/
theorem best_of_next {l : Lexer} (inside : l.here.In l.source) :
    (∀ there c, Token.next l.here = .stuck there c →
      ∀ u, u <+: l.ahead → ¬ ∃ kind, Belongs kind u) ∧
    ∀ there k, Token.next l.here = .token k there → k.start = l.here.afterGap.offset ∧
      IsLongest l.ahead k.text ∧
      ∃ kind, IsFirst Spelling.classes kind k.text ∧ k.kind = reclassify kind k.text := by
  have best := Spelling.best_longestAmong Spelling.finds_classes l.ahead
  constructor
  · rintro there c stuck u ⟨r, split⟩ belongs
    have found : longest l.ahead = none := by
      by_contra found
      obtain ⟨⟨kind, v, r⟩, found⟩ := Option.ne_none_iff_exists'.1 found
      rw [← rest_eq_ahead inside] at found
      have token := next_eq_token_iff.2 ⟨kind, v, r, found, rfl, rfl⟩
      rw [stuck] at token
      cases token
    rw [show longestAmong Token.classes l.ahead = none from found] at best
    exact best u r split.symm (Spelling.spelled_classes_iff.2 belongs)
  · intro there k token
    have ne_nil : k.text ≠ [] := (rest_of_next token).2.1
    obtain ⟨kind, u, r, found, rfl, -⟩ := next_eq_token_iff.1 token
    rw [rest_eq_ahead inside] at found
    rw [show longestAmong Token.classes l.ahead = some (kind, u, r) from found] at best
    obtain ⟨split, first, longest⟩ := best
    refine ⟨congrArg Cursor.offset (afterSkip_eq_afterGap l.here),
      ⟨⟨r, split.symm⟩, ne_nil, ?_, ?_⟩, kind, first, rfl⟩
    · exact Spelling.spelled_classes_iff.1 first.spelled
    · rintro v ⟨s, hv⟩ belongs
      exact longest v s hv.symm (Spelling.spelled_classes_iff.2 belongs)

/-- Before the end of the source a lexer is stuck exactly where no front of what is ahead, the empty
one aside, belongs to a class of tokens.  Else it returns the longest front that does, with the
first class that has it, and a name that is a keyword as a keyword. -/
theorem next_longest {l : Lexer} (inside : l.here.In l.source)
    (more : l.here.afterGap.offset < l.source.length) :
    ((∃ bad, l.next.1 = .error bad) ↔
      ∀ u, u <+: l.ahead → u ≠ [] → ¬ ∃ kind, Belongs kind u) ∧
    ((∃ u, u <+: l.ahead ∧ u ≠ [] ∧ ∃ kind, Belongs kind u) →
      ∃ k kind, l.next.1 = .ok (some k) ∧ k.start = l.here.afterGap.offset ∧
        IsLongest l.ahead k.text ∧ IsFirst Spelling.classes kind k.text ∧
        k.kind = if kind = .identifier ∧ Keyword.isKeyword k.text then .keyword else kind) := by
  obtain ⟨unread, read⟩ := best_of_next inside
  cases step : Token.next l.here with
  | done there =>
    have length := congrArg List.length (next_eq_done_iff.1 step).1
    rw [rest_eq_ahead inside, ahead, List.length_drop, List.length_nil] at length
    omega
  | stuck there c =>
    have none_belongs := unread there c step
    constructor
    · exact iff_of_true ⟨⟨there.offset, c⟩, by rw [next, step]⟩ fun u front _ =>
        none_belongs u front
    · rintro ⟨u, front, -, belongs⟩
      exact absurd belongs (none_belongs u front)
  | token k there =>
    obtain ⟨start, longest, kind, first, hkind⟩ := read there k step
    have returned : l.next.1 = .ok (some k) := next_eq_ok_some_iff.2 ⟨there, step⟩
    refine ⟨iff_of_false ?_ ?_, fun _ => ⟨k, kind, returned, start, longest, first, hkind⟩⟩
    · rintro ⟨bad, stuck⟩
      rw [returned] at stuck
      cases stuck
    · exact fun none_belongs => none_belongs k.text longest.front longest.ne_nil longest.belongs

/-- Where a numeral goes on as a name, the name is the longest and is returned. -/
theorem next_longest_name :
    (ofSource (Text.lit " 2e3x;")).next.1 = .ok (some ⟨.identifier, Text.lit "2e3x", 1⟩) ∧
      IsLongest (Text.lit "2e3x;") (Text.lit "2e3x") := by
  have returned : (ofSource (Text.lit " 2e3x;")).next.1 =
      .ok (some ⟨.identifier, Text.lit "2e3x", 1⟩) := by decide +kernel
  obtain ⟨stuck, read⟩ := next_longest (l := ofSource (Text.lit " 2e3x;"))
    (Cursor.start_in _) (by decide +kernel)
  have belongs : ∃ u, u <+: (ofSource (Text.lit " 2e3x;")).ahead ∧ u ≠ [] ∧
      ∃ kind, Belongs kind u := by
    by_contra none
    obtain ⟨bad, error⟩ := stuck.2 fun u front some belongs => none ⟨u, front, some, belongs⟩
    rw [returned] at error
    cases error
  obtain ⟨k, kind, token, -, longest, -⟩ := read belongs
  rw [returned] at token
  cases token
  have ahead : (ofSource (Text.lit " 2e3x;")).ahead = Text.lit "2e3x;" := by decide +kernel
  exact ⟨returned, ahead ▸ longest⟩

end Lexer

/-! ### Terminals and tokens -/

/-- The terminal matches here, up to the offset. -/
def Terminal.MatchesTo (t : Terminal) (here : Cursor) (stop : Nat) : Prop :=
  ∃ u next, here.read t.reader = some (u, next) ∧ next.offset = stop

/-- The step that a lexer takes for which only these classes compete. -/
def Token.nextAmong (classes : List (TokenKind × Reader)) (here : Cursor) : Token.Step :=
  let there := here.afterGap
  match there.rest with
  | []     => .done there
  | c :: _ =>
    match longestAmong classes there.rest with
    | none              => .stuck there c
    | some (kind, u, r) =>
      .token ⟨reclassify kind u, u, there.offset⟩ ⟨there.offset + u.length, r⟩

/-- The classes of tokens, references to files removed. -/
def Token.withoutReferences : List (TokenKind × Reader) :=
  Token.classes.filter fun c => c.1 ≠ .useFile ∧ c.1 ≠ .includeFile

/-- The step is a token of this sort that ends at the offset. -/
def Token.Step.EndsAt (step : Token.Step) (sort : Token → Prop) (stop : Nat) : Prop :=
  ∃ k next, step = .token k next ∧ sort k ∧ k.stop = stop

namespace Grammar

/-- A terminal matches where its token is, and up to its end. -/
theorem matchesTo_iff {t : Terminal} (plain : Lexeme.isPlain t = true) {here : Cursor}
    {stop : Nat} :
    t.MatchesTo here.afterGap stop ↔
      ∃ k next, tokenAt here = some (k, next) ∧ t.Accepts k ∧ k.stop = stop := by
  rw [← afterSkip_eq_afterGap]
  constructor
  · rintro ⟨u, next, read, rfl⟩
    have run : Run.terminal t here = some ([.leaf t (afterSkip here).offset u], next) := by
      rw [Run.terminal, read]
      rfl
    obtain ⟨k, token, accepts, -⟩ := (terminal_eq_some_iff plain).1 run
    exact ⟨k, next, token, accepts, (rest_of_tokenAt token).2.2.2.symm⟩
  · rintro ⟨k, next, token, accepts, rfl⟩
    have run := (terminal_eq_some_iff plain).2 ⟨k, token, accepts, rfl⟩
    obtain ⟨⟨u, there⟩, read, same⟩ := Option.map_eq_some_iff.1 run
    obtain rfl : there = next := (Prod.mk.inj same).2
    exact ⟨u, there, read, (rest_of_tokenAt token).2.2.2⟩

/-- A terminal that stands for no names matches where a lexer reads its token. -/
theorem matchesTo_iff_next {t : Terminal} (plain : Lexeme.isPlain t = true) {here : Cursor}
    (unnamed : ∀ k, t.Accepts k → k.kind ∉ [.identifier, .useFile, .includeFile]) {stop : Nat} :
    t.MatchesTo here.afterGap stop ↔ (Token.next here).EndsAt t.Accepts stop := by
  rw [matchesTo_iff plain]
  refine exists₂_congr fun k next => and_congr_left fun ⟨accepts, _⟩ => ?_
  have kind := unnamed k accepts
  simp only [List.mem_cons, List.not_mem_nil, or_false, not_or] at kind
  constructor
  · exact fun token => next_of_tokenAt token fun name => absurd name kind.1
  · exact fun step => tokenAt_of_next step kind.2.1 kind.2.2

/-- The token at a place is what a lexer reads that knows no references. -/
theorem tokenAt_eq_some_iff {here next : Cursor} {k : Token} :
    tokenAt here = some (k, next) ↔
      Token.nextAmong Token.withoutReferences here = .token k next := by
  have classes : Token.withoutReferences = Lexeme.plainClasses := rfl
  unfold Token.nextAmong tokenAt Lexeme.front
  rw [afterSkip_eq_afterGap, classes]
  obtain ⟨offset, rest⟩ := here.afterGap
  cases rest with
  | nil => simp [show longestAmong Lexeme.plainClasses [] = none from rfl]
  | cons c r =>
    dsimp only
    cases longestAmong Lexeme.plainClasses (c :: r) with
    | none => simp
    | some o => simp

/-- The grammar skips what a lexer skips, and where it stops its terminals match as the lexer reads
their tokens: up to the same place or not at all. -/
theorem terminal_iff_next (here : Cursor) :
    afterSkip here = here.afterGap ∧ ∀ stop,
      (Terminal.number.MatchesTo here.afterGap stop ↔
        (Token.next here).EndsAt (fun k => k.kind = .number) stop) ∧
      (∀ w : Keyword, (Terminal.keyword w).MatchesTo here.afterGap stop ↔
        (Token.next here).EndsAt (fun k => k.kind = .keyword ∧ k.text = w.spelling) stop) ∧
      (Terminal.string.MatchesTo here.afterGap stop ↔
        (Token.next here).EndsAt (fun k => k.kind = .string) stop) ∧
      (Terminal.period.MatchesTo here.afterGap stop ↔
        (Token.next here).EndsAt (fun k => k.kind = .symbol ∧ k.text = ['.']) stop) ∧
      (Terminal.identifier.MatchesTo here.afterGap stop ↔
        (Token.nextAmong Token.withoutReferences here).EndsAt (fun k => k.kind = .identifier)
          stop) := by
  refine ⟨afterSkip_eq_afterGap here, fun stop => ⟨?_, fun w => ?_, ?_, ?_, ?_⟩⟩
  · exact matchesTo_iff_next (t := .number) rfl fun k accepts => by
      simp [show k.kind = .number from accepts]
  · exact matchesTo_iff_next (t := .keyword w) rfl fun k accepts => by simp [accepts.1]
  · exact matchesTo_iff_next (t := .string) rfl fun k accepts => by
      simp [show k.kind = .string from accepts]
  · exact matchesTo_iff_next (t := .period) rfl fun k accepts => by simp [accepts.1]
  · rw [matchesTo_iff rfl]
    exact exists₂_congr fun k next => and_congr_left fun _ => tokenAt_eq_some_iff

end Grammar

end SolidScript
