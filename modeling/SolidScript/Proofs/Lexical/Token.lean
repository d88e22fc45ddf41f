import SolidScript.Proofs.Lexical.Front
import SolidScript.Proofs.Lexical.Gap
import SolidScript.Proofs.Matching.Outcome

/-!
# Lexical — tokens at places

The token at a place, references to files aside, is what the terminals of the grammar look at
(`terminal_eq_tokenAt`).  The tokens of a source are these tokens and the references
(`next_of_tokenAt`, `reference_eq_some_iff`): the two readings of a source split it at the same places
wherever no reference stands that the grammar does not look for.
-/

namespace SolidScript.Grammar
open Lexeme (front isPlain plainClasses taken)
open Token (Found longer longest longestAmong reclassify)
open Reader

/-- The token after the gap at a place, references to files aside, and the place after it. -/
def tokenAt (here : Cursor) : Option (Token × Cursor) :=
  (front (afterSkip here).rest).map fun (kind, u, r) =>
    (⟨kind, u, (afterSkip here).offset⟩, ⟨(afterSkip here).offset + u.length, r⟩)

/-! ### Terminals look at tokens -/

/-- Where a token stands does not matter to a terminal. -/
theorem accepts_start {t : Terminal} {kind : TokenKind} {u : Text} (m n : Nat) :
    t.Accepts ⟨kind, u, m⟩ ↔ t.Accepts ⟨kind, u, n⟩ := by
  cases t <;> rfl

/-- A plain terminal matches the token that is there, references aside, if it stands for it. -/
theorem terminal_eq_tokenAt {t : Terminal} (ht : isPlain t = true) (here : Cursor) :
    Run.terminal t here = (tokenAt here).bind fun o =>
      if t.Accepts o.1 then some ([.leaf t o.1.start o.1.text], o.2) else none := by
  unfold Run.terminal Cursor.read tokenAt
  rw [Lexeme.reader_eq_front ht]
  cases front (afterSkip here).rest with
  | none => rfl
  | some o =>
    obtain ⟨kind, u, r⟩ := o
    by_cases h : t.Accepts ⟨kind, u, 0⟩
    · have h' := (accepts_start 0 (afterSkip here).offset).1 h
      simp [taken, h, h']
    · have h' : ¬ t.Accepts ⟨kind, u, (afterSkip here).offset⟩ := fun k =>
        h ((accepts_start _ 0).1 k)
      simp [taken, h, h']

/-- A terminal matches where its token is. -/
theorem terminal_eq_some_iff {t : Terminal} (ht : isPlain t = true) {here next : Cursor}
    {ts : List Tree} :
    Run.terminal t here = some (ts, next) ↔
      ∃ k, tokenAt here = some (k, next) ∧ t.Accepts k ∧ ts = [.leaf t k.start k.text] := by
  rw [terminal_eq_tokenAt ht]
  cases tokenAt here with
  | none => simp
  | some o =>
    obtain ⟨k, n⟩ := o
    by_cases h : t.Accepts k
    · simp only [Option.bind_some, h, if_true, Option.some.injEq, Prod.mk.injEq]
      constructor
      · rintro ⟨rfl, rfl⟩; exact ⟨k, ⟨rfl, rfl⟩, h, rfl⟩
      · rintro ⟨_, ⟨rfl, rfl⟩, -, rfl⟩; exact ⟨rfl, rfl⟩
    · simp only [Option.bind_some, h, if_false, reduceCtorEq, Option.some.injEq, Prod.mk.injEq,
        false_iff, not_exists, not_and]
      rintro _ ⟨rfl, rfl⟩ ha
      exact absurd ha h

/-! ### Tokens are parts of the text -/

theorem splits_plain : ∀ c ∈ plainClasses, c.2.Splits := by
  simp [plainClasses, Number.Numeral.splits_reader, Lexeme.splits_name, Lexeme.splits_string,
    Lexeme.splits_symbol]

theorem takes_plain : ∀ c ∈ plainClasses, c.2.Takes := by
  simp [plainClasses, Number.Numeral.takes_reader, Lexeme.takes_name, Lexeme.takes_string,
    Lexeme.takes_symbol]

/-- What is found was found before or is what this class reads. -/
theorem longer_eq_some {t : Text} {found : Option Found} {c : TokenKind × Reader} {x : Found}
    (h : longer t found c = some x) : found = some x ∨ c.1 = x.1 ∧ c.2 t = some x.2 := by
  unfold longer at h
  cases hc : c.2 t with
  | none => rw [hc] at h; exact .inl h
  | some o =>
    rw [hc] at h
    cases found with
    | none =>
      cases h
      exact .inr ⟨rfl, rfl⟩
    | some f =>
      dsimp only at h
      split at h
      · cases h
        exact .inr ⟨rfl, rfl⟩
      · exact .inl h

/-- What is found was read by one of the classes. -/
theorem mem_of_longestAmong {classes : List (TokenKind × Reader)} {t : Text} {x : Found}
    (h : longestAmong classes t = some x) : ∃ c ∈ classes, c.1 = x.1 ∧ c.2 t = some x.2 := by
  have step : ∀ (cs : List (TokenKind × Reader)) (found : Option Found),
      cs.foldl (longer t) found = some x →
        found = some x ∨ ∃ c ∈ cs, c.1 = x.1 ∧ c.2 t = some x.2 := by
    intro cs
    induction cs with
    | nil => exact fun found h => .inl h
    | cons c cs ih =>
      intro found h
      rcases ih _ h with h | ⟨d, hd, h⟩
      · exact (longer_eq_some h).imp_right fun h => ⟨c, List.mem_cons_self, h⟩
      · exact .inr ⟨d, List.mem_cons_of_mem _ hd, h⟩
  exact (step classes none h).resolve_left (by simp)

/-- The token at the front is a part of the text, and takes a character. -/
theorem front_splits {t u r : Text} {kind : TokenKind} (h : front t = some (kind, u, r)) :
    u ++ r = t ∧ u ≠ [] := by
  obtain ⟨⟨k, v, s⟩, hv, he⟩ := Option.map_eq_some_iff.1 h
  cases he
  obtain ⟨c, hc, -, hr⟩ := mem_of_longestAmong hv
  exact ⟨(splits_plain c hc).append_eq hr, (takes_plain c hc).ne_nil hr⟩

/-- The token at a place is a part of the text from there on, and starts there. -/
theorem rest_of_tokenAt {here next : Cursor} {k : Token} (h : tokenAt here = some (k, next)) :
    (afterSkip here).rest = k.text ++ next.rest ∧ k.text ≠ [] ∧
      k.start = (afterSkip here).offset ∧ next.offset = k.start + k.text.length := by
  obtain ⟨⟨kind, u, r⟩, hu, he⟩ := Option.map_eq_some_iff.1 h
  cases he
  have := front_splits hu
  exact ⟨this.1.symm, this.2, rfl, rfl⟩

theorem length_tokenAt_lt {here next : Cursor} {k : Token} (h : tokenAt here = some (k, next)) :
    next.rest.length < here.rest.length := by
  obtain ⟨hr, hn, -, -⟩ := rest_of_tokenAt h
  have := length_afterSkip_le here
  rw [hr, List.length_append] at this
  have := List.length_pos_iff.2 hn
  omega

/-! ### References to files -/

/-- The longest lexeme at a text is that of `front`, where no reference to a file is. -/
theorem longest_of_no_reference {t : Text} (use : Lexeme.useFile t = none)
    (inclusion : Lexeme.includeFile t = none) :
    longest t = longestAmong plainClasses t := by
  simp [longest, longestAmong, Token.classes, plainClasses, longer, use, inclusion]

/-- Only a name and its reference compete for a text that a reference is at the front of. -/
theorem others_of_reference {w t u r : Text} (hw : w ∈ Lexeme.referenceWords)
    (h : Lexeme.reference w t = some (u, r)) :
    Number.Numeral.reader t = none ∧ Lexeme.string t = none ∧ Lexeme.symbol t = none ∧
      ∀ v ∈ Lexeme.referenceWords, v ≠ w → Lexeme.reference v t = none := by
  obtain ⟨s, hname, -⟩ := Lexeme.name_of_reference hw h
  obtain ⟨c, x, rfl, hc, hd⟩ : ∃ c x, t = c :: x ∧ Lexeme.startsName c = true ∧
      Text.isDigit c = false := by
    obtain ⟨b, p, rfl, rfl, -, -⟩ := Lexeme.reference_eq_some_iff.1 h
    simp only [Lexeme.referenceWords, List.mem_cons, List.not_mem_nil, or_false] at hw
    rcases hw with rfl | rfl
    · exact ⟨'u', _, rfl, by decide, by decide⟩
    · exact ⟨'i', _, rfl, by decide, by decide⟩
  have noSymbol := Lexeme.head_of_symbol_of_startsName hc
  refine ⟨(Lexeme.numeral_of_other hd (by rintro rfl; exact absurd hc (by decide))).1,
    Lexeme.string_of_other (by rintro rfl; exact absurd hc (by decide)),
    Lexeme.symbol_of_no_symbol noSymbol, fun v hv hne => ?_⟩
  cases hr : Lexeme.reference v (c :: x) with
  | none => rfl
  | some o =>
    obtain ⟨s', hname', -⟩ := Lexeme.name_of_reference hv hr
    rw [hname] at hname'
    cases hname'
    exact absurd rfl hne

/-- Where a reference is, the token without it is its word. -/
theorem front_of_reference {w t u r : Text} (hw : w ∈ Lexeme.referenceWords)
    (h : Lexeme.reference w t = some (u, r)) : ∃ s, front t = some (.identifier, w, s) := by
  obtain ⟨number, string, symbol, -⟩ := others_of_reference hw h
  obtain ⟨s, hname, -⟩ := Lexeme.name_of_reference hw h
  have hk : Keyword.isKeyword w = false :=
    (by decide : ∀ w ∈ Lexeme.referenceWords, Keyword.isKeyword w = false) w hw
  exact ⟨s, by simp [front, longestAmong, plainClasses, longer, number, hname, string, symbol,
    reclassify, hk]⟩

/-- Where a `use` with its path can be read, it is the longest token. -/
theorem longest_of_useFile {t u r : Text} (h : Lexeme.useFile t = some (u, r)) :
    longest t = some (.useFile, u, r) := by
  have hw : Text.lit "use" ∈ Lexeme.referenceWords := by decide
  obtain ⟨number, string, symbol, others⟩ := others_of_reference hw h
  obtain ⟨s, hname, hl⟩ := Lexeme.name_of_reference hw h
  have other : Lexeme.includeFile t = none := others _ (by decide) (by decide)
  simp [longest, longestAmong, Token.classes, longer, number, hname, string, symbol, h, other, hl]

/-- Where an `include` with its path can be read, it is the longest token. -/
theorem longest_of_includeFile {t u r : Text} (h : Lexeme.includeFile t = some (u, r)) :
    longest t = some (.includeFile, u, r) := by
  have hw : Text.lit "include" ∈ Lexeme.referenceWords := by decide
  obtain ⟨number, string, symbol, others⟩ := others_of_reference hw h
  obtain ⟨s, hname, hl⟩ := Lexeme.name_of_reference hw h
  have other : Lexeme.useFile t = none := others _ (by decide) (by decide)
  simp [longest, longestAmong, Token.classes, longer, number, hname, string, symbol, h, other, hl]

/-! ### The tokens of a source -/

/-- A lexer skips the gap and takes the longest token behind it. -/
theorem next_eq (here : Cursor) :
    Token.next here =
      match (afterSkip here).rest with
      | []     => .done (afterSkip here)
      | c :: _ =>
        match longest (afterSkip here).rest with
        | none              => .stuck (afterSkip here) c
        | some (kind, u, r) =>
          .token ⟨reclassify kind u, u, (afterSkip here).offset⟩
            ⟨(afterSkip here).offset + u.length, r⟩ := by
  rw [afterSkip_eq_afterGap]
  rfl

/-- A lexer is done exactly if nothing is left behind the gap. -/
theorem next_eq_done_iff {here there : Cursor} :
    Token.next here = .done there ↔ (afterSkip here).rest = [] ∧ there = afterSkip here := by
  rw [next_eq]
  cases (afterSkip here).rest with
  | nil => simp [eq_comm]
  | cons c r =>
    cases longest (c :: r) with
    | none => simp
    | some o => simp

/-- A lexer is stuck behind the gap. -/
theorem eq_of_next_stuck {here there : Cursor} {c : Char} (h : Token.next here = .stuck there c) :
    there = afterSkip here := by
  rw [next_eq] at h
  split at h
  · cases h
  · split at h <;> cases h
    rfl

/-- A lexer reads exactly the longest token behind the gap, keywords told from names. -/
theorem next_eq_token_iff {here next : Cursor} {k : Token} :
    Token.next here = .token k next ↔
      ∃ kind u r, longest (afterSkip here).rest = some (kind, u, r) ∧
        k = ⟨reclassify kind u, u, (afterSkip here).offset⟩ ∧
        next = ⟨(afterSkip here).offset + u.length, r⟩ := by
  rw [next_eq]
  cases hr : (afterSkip here).rest with
  | nil =>
    have none_left : longest [] = none := rfl
    simp [none_left]
  | cons c r =>
    cases longest (c :: r) with
    | none => simp
    | some o =>
      obtain ⟨kind, u, r⟩ := o
      constructor
      · intro h
        cases h
        exact ⟨kind, u, r, rfl, rfl, rfl⟩
      · rintro ⟨_, _, _, he, rfl, rfl⟩
        cases he
        rfl

/-- The token at a place is the next token where no reference is. -/
theorem next_of_no_reference {here next : Cursor} {k : Token} (h : tokenAt here = some (k, next))
    (hr : ∀ w ∈ Lexeme.referenceWords, Lexeme.reference w (afterSkip here).rest = none) :
    Token.next here = .token k next := by
  obtain ⟨⟨kind, u, r⟩, hu, he⟩ := Option.map_eq_some_iff.1 h
  cases he
  have same := longest_of_no_reference (hr _ (by decide)) (hr _ (by decide))
  obtain ⟨⟨kind', v, s⟩, hv, he⟩ := Option.map_eq_some_iff.1 hu
  cases he
  exact next_eq_token_iff.2 ⟨kind', _, _, same.trans hv, rfl, rfl⟩

/-- The token at a place is the next token, unless it is the word of a reference. -/
theorem next_of_tokenAt {here next : Cursor} {k : Token} (h : tokenAt here = some (k, next))
    (hk : k.kind = .identifier → k.text ∉ Lexeme.referenceWords) :
    Token.next here = .token k next := by
  refine next_of_no_reference h fun w hw => ?_
  obtain ⟨⟨kind, u, r⟩, hu, he⟩ := Option.map_eq_some_iff.1 h
  cases he
  cases hr : Lexeme.reference w (afterSkip here).rest with
  | none => rfl
  | some o =>
    obtain ⟨s, hs⟩ := front_of_reference hw hr
    rw [hu] at hs
    cases hs
    exact absurd hw (hk rfl)

/-- The next token is the token at the place, unless it is a reference. -/
theorem tokenAt_of_next {here next : Cursor} {k : Token} (h : Token.next here = .token k next)
    (use : k.kind ≠ .useFile) (inclusion : k.kind ≠ .includeFile) :
    tokenAt here = some (k, next) := by
  obtain ⟨kind, u, r, hu, rfl, rfl⟩ := next_eq_token_iff.1 h
  have useFile : Lexeme.useFile (afterSkip here).rest = none := by
    cases hr : Lexeme.useFile (afterSkip here).rest with
    | none => rfl
    | some o =>
      have := longest_of_useFile hr
      rw [hu] at this
      cases this
      exact absurd rfl use
  have includeFile : Lexeme.includeFile (afterSkip here).rest = none := by
    cases hr : Lexeme.includeFile (afterSkip here).rest with
    | none => rfl
    | some o =>
      have := longest_of_includeFile hr
      rw [hu] at this
      cases this
      exact absurd rfl inclusion
  rw [longest_of_no_reference useFile includeFile] at hu
  simp [tokenAt, front, hu]

/-- Only a name is classified anew. -/
theorem eq_of_reclassify {kind kind' : TokenKind} {u : Text} (h : reclassify kind u = kind')
    (hk : kind' ≠ .keyword) : kind = kind' := by
  unfold reclassify at h
  split at h
  · exact absurd h.symm hk
  · exact h

/-- A terminal for references matches where its reference is the next token. -/
theorem reference_eq_some_iff {t : Terminal} (ht : t = .useFile ∨ t = .includeFile)
    {here next : Cursor} {ts : List Tree} :
    Run.terminal t here = some (ts, next) ↔
      ∃ k, Token.next here = .token k next ∧ t.Accepts k ∧ ts = [.leaf t k.start k.text] := by
  constructor
  · intro h
    obtain ⟨⟨u, m⟩, hu, he⟩ := Option.map_eq_some_iff.1 h
    cases he
    obtain ⟨⟨v, r⟩, hv, he⟩ := Option.map_eq_some_iff.1 hu
    cases he
    rcases ht with rfl | rfl
    · exact ⟨_, next_eq_token_iff.2 ⟨_, _, _, longest_of_useFile hv, rfl, rfl⟩, rfl, rfl⟩
    · exact ⟨_, next_eq_token_iff.2 ⟨_, _, _, longest_of_includeFile hv, rfl, rfl⟩, rfl, rfl⟩
  · rintro ⟨k, hk, ha, rfl⟩
    obtain ⟨kind, u, r, hu, rfl, rfl⟩ := next_eq_token_iff.1 hk
    obtain ⟨c, hc, hkind, hr⟩ := mem_of_longestAmong hu
    rcases ht with rfl | rfl
    · obtain rfl := eq_of_reclassify ha (by decide)
      obtain rfl : c = (.useFile, Lexeme.useFile) := by
        simp only [Token.classes, List.mem_cons, List.not_mem_nil, or_false] at hc
        rcases hc with rfl | rfl | rfl | rfl | rfl | rfl <;> first | rfl | cases hkind
      simp [Run.terminal, Cursor.read, Terminal.reader, show Lexeme.useFile _ = _ from hr]
    · obtain rfl := eq_of_reclassify ha (by decide)
      obtain rfl : c = (.includeFile, Lexeme.includeFile) := by
        simp only [Token.classes, List.mem_cons, List.not_mem_nil, or_false] at hc
        rcases hc with rfl | rfl | rfl | rfl | rfl | rfl <;> first | rfl | cases hkind
      simp [Run.terminal, Cursor.read, Terminal.reader, show Lexeme.includeFile _ = _ from hr]

/-- The tokens from a place on, up to the end of the source. -/
inductive Reads : Cursor → List Token → Prop where
  | done {here there : Cursor} (h : Token.next here = .done there) : Reads here []
  | token {here there : Cursor} {k : Token} {ks : List Token}
      (h : Token.next here = .token k there) (r : Reads there ks) : Reads here (k :: ks)

/-- The next token is a part of the text from its place on, and starts there. -/
theorem rest_of_next {here next : Cursor} {k : Token} (h : Token.next here = .token k next) :
    (afterSkip here).rest = k.text ++ next.rest ∧ k.text ≠ [] ∧
      k.start = (afterSkip here).offset ∧ next.offset = k.start + k.text.length := by
  obtain ⟨kind, u, r, hu, rfl, rfl⟩ := next_eq_token_iff.1 h
  obtain ⟨c, hc, -, hr⟩ := mem_of_longestAmong hu
  have splits : c.2.Splits ∧ c.2.Takes := by
    simp only [Token.classes, List.mem_cons, List.not_mem_nil, or_false] at hc
    rcases hc with rfl | rfl | rfl | rfl | rfl | rfl
    · exact ⟨Number.Numeral.splits_reader, Number.Numeral.takes_reader⟩
    · exact ⟨Lexeme.splits_name, Lexeme.takes_name⟩
    · exact ⟨Lexeme.splits_string, Lexeme.takes_string⟩
    · exact ⟨Lexeme.splits_reference _, Lexeme.takes_reference (by decide)⟩
    · exact ⟨Lexeme.splits_reference _, Lexeme.takes_reference (by decide)⟩
    · exact ⟨Lexeme.splits_symbol, Lexeme.takes_symbol⟩
  exact ⟨(splits.1.append_eq hr).symm, splits.2.ne_nil hr, rfl, rfl⟩

/-- A token that a lexer reads takes a character. -/
theorem length_next_lt {here next : Cursor} {k : Token} (h : Token.next here = .token k next) :
    next.rest.length < here.rest.length := by
  obtain ⟨hr, hn, -, -⟩ := rest_of_next h
  have := length_afterSkip_le here
  rw [hr, List.length_append] at this
  have := List.length_pos_iff.2 hn
  omega

/-- A budget above the number of characters reads all tokens. -/
theorem upto_eq_iff {n : Nat} {here : Cursor} {ks : List Token} (hn : here.rest.length < n) :
    (∃ stop, Token.upto n here = (ks, stop, none)) ↔ Reads here ks := by
  induction n generalizing here ks with
  | zero => omega
  | succ n ih =>
    unfold Token.upto
    cases h : Token.next here with
    | done there =>
      constructor
      · rintro ⟨stop, he⟩
        cases he
        exact .done h
      · intro r
        cases r with
        | done => exact ⟨there, rfl⟩
        | token h' => rw [h] at h'; cases h'
    | stuck there c =>
      constructor
      · rintro ⟨stop, he⟩
        cases he
      · intro r
        cases r with
        | done h' => rw [h] at h'; cases h'
        | token h' => rw [h] at h'; cases h'
    | token k there =>
      have hl := length_next_lt h
      constructor
      · rintro ⟨stop, he⟩
        dsimp only at he
        cases hu : Token.upto n there with
        | mk ts o =>
          obtain ⟨stop', bad⟩ := o
          rw [hu] at he
          cases he
          exact .token h ((ih (by omega)).1 ⟨_, hu⟩)
      · intro r
        cases r with
        | done h' => rw [h] at h'; cases h'
        | token h' r =>
          rw [h] at h'
          cases h'
          obtain ⟨stop, hs⟩ := (ih (by omega)).2 r
          exact ⟨stop, by dsimp only; rw [hs]⟩

/-- The tokens of a source are those that a lexer reads from its start to its end. -/
theorem ofSource_eq_ok_iff {source : Text} {ks : List Token} :
    Token.ofSource source = .ok ks ↔ Reads (.start source) ks := by
  rw [← upto_eq_iff (Nat.lt_succ_self _)]
  unfold Token.ofSource Token.onward
  obtain ⟨ts, stop, bad⟩ := Token.upto ((Cursor.start source).rest.length + 1) (.start source)
  cases bad with
  | none => simp
  | some bad => simp

end SolidScript.Grammar
