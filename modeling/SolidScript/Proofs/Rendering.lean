import SolidScript.Proofs.Phrase.Settled
import SolidScript.Proofs.Phrase.Standing

/-!
# Scripts — rendering and reading again

What is read from a source can be rendered and read again as the same script, unless a field in it has
a name that starts with a digit.  Such a field can be written with a blank or a comment behind the
point, but is rendered without: then point and digit are a numeral, which the end of the name follows,
and no statement has room for that.

The tokens of the line that a script is rendered as spell the script (`says_line`), and lie in what the
line reads up to the first point before a digit (`lies_line`).

* `Script.HasDigitField`: a field has a name that starts with a digit.
* `render_parseWith`: what is read from what a script is rendered as.
-/

namespace SolidScript
open Line (Lies Sticks closes)
open Text (isDigit lit)

/-! ### References to files -/

namespace Reference

theorem begins_file (k : Reference) {p : Text} (hp : '>' ∉ p) (r : Text) :
    Lexeme.Begins k.tokenKind (k.text ++ ' ' :: '<' :: p ++ ['>']) r := by
  have read : Lexeme.reference k.text ((k.text ++ ' ' :: '<' :: p ++ ['>']) ++ r) =
      some (k.text ++ ' ' :: '<' :: p ++ ['>'], r) :=
    Lexeme.reference_eq_some_iff.2 ⟨[' '], p, by simp, rfl, List.forall_mem_singleton.2 rfl, hp⟩
  cases k with
  | use => exact .useFile read rfl
  | inclusion => exact .includeFile read rfl

theorem path_file (k : Reference) (p : Text) :
    OfTree.path (k.text ++ ' ' :: '<' :: p ++ ['>']) = p := by
  have word : '<' ∉ k.text := by cases k <;> decide
  simpa using Grammar.path_append (b := [' ']) (p := p) word (by decide)

end Reference

/-! ### The line of a script -/

namespace Script
variable {s : Script}

/-- The tokens of a statement at the top come before those of a script. -/
theorem says_cons {t : Statement} {ks : List Token}
    (h : (∀ p k path, t ≠ .file p k path) → (Node.statement t).Spelt)
    (said : Says (.script s) ks) :
    Says (.script (t.mapPlaces Place.first :: s)) (t.line.tokens ++ ks) := by
  by_cases file : ∃ p k path, t = .file p k path
  · obtain ⟨p, k, path, rfl⟩ := file
    have refers : Says
        (.script (.file (some 0) k (OfTree.path (k.text ++ ' ' :: '<' :: path ++ ['>'])) :: s))
        (⟨k.tokenKind, k.text ++ ' ' :: '<' :: path ++ ['>'], 0⟩ :: ks) := by
      cases k with
      | use => exact .useFile (k := ⟨.useFile, _, 0⟩) rfl said
      | inclusion => exact .includeFile (k := ⟨.includeFile, _, 0⟩) rfl said
    rwa [k.path_file] at refers
  · exact .ordinary (h fun p k path he => file ⟨p, k, path, he⟩) said

/-- The tokens of the line say the script, as one whose constructs all start where the source does. -/
theorem says_line (ok : s.WellShaped) :
    Says (.script (Statement.mapPlacesList Place.first s)) (Script.line s).tokens := by
  have spelt : ∀ t ∈ s, (∀ p k path, t ≠ .file p k path) → (Node.statement t).Spelt :=
    fun t ht file => ok.of_formers Node.Spelt.formers (fun _ _ _ _ => trivial) _
      ⟨t, ht, .self _⟩ fun p k path he => file p k path (Node.statement.inj he)
  clear ok
  induction s using Script.line.induct with
  | case1 => exact .emptyScript
  | case2 t =>
    have said := says_cons (spelt t List.mem_cons_self) .emptyScript
    rwa [List.append_nil] at said
  | case3 t u r ih =>
    rw [List.forall_mem_cons] at spelt
    rw [Script.line, Line.tokens_append, Line.tokens_blank]
    exact says_cons spelt.1 (ih spelt.2)

/-- The line lies in what it reads, but for points before fields that start with a digit. -/
theorem lies_line (ok : s.WellShaped) {P : Text → Prop}
    (field : ∀ p e n, s.Holds (.expr (.member p e n)) → P n) : Lies P (Script.line s) [] := by
  have lies : ∀ t ∈ s, ∀ r, closes r = true → t.line.Lies P r := by
    intro t ht r hr
    by_cases file : ∃ p k path, t = .file p k path
    · obtain ⟨p, k, path, rfl⟩ := file
      obtain ⟨-, free⟩ := ok.files _ ht p k path (.self _)
      refine (Line.lies_token (l := []) (.mk (k.begins_file free r) fun he => ?_)).2 trivial
      cases k <;> exact absurd (List.cons.inj he).1 (by decide)
    · have settled := ok.of_formers Node.Settled.formers field (.statement t) ⟨t, ht, .self _⟩
        fun p k path he => file ⟨p, k, path, Node.statement.inj he⟩
      exact settled.lies r hr
  clear ok field
  induction s using Script.line.induct with
  | case1 => trivial
  | case2 t => exact lies t List.mem_cons_self [] rfl
  | case3 t u r ih =>
    rw [List.forall_mem_cons] at lies
    exact .append (lies.1 _ rfl) (.blank (ih lies.2))

end Script

/-! ### Reading what is rendered -/

namespace Grammar
variable {s : Script}

/-- The rendering is what the line reads. -/
theorem afterSkip_render (s : Script) :
    afterSkip (.start s.render) = afterSkip ⟨0, (Script.line s).text ++ []⟩ := by
  rw [Script.text_line, List.append_nil]
  rfl

/-- Where the line lies as it is, the tokens of the rendering are its tokens. -/
theorem laidToEnd_render (lies : Lies (fun _ => False) (Script.line s) []) :
    ∃ ks, LaidToEnd (.start s.render) ks ∧
      AllAlike id (Option.map fun _ => 0) (Script.line s).tokens ks := by
  rw [← Script.text_line s]
  exact laidToEnd_of_lies lies

end Grammar

namespace Token
variable {f g : Place → Place} {k l : Token}

theorem Alike.symm (h : Alike f g k l) : Alike g f l k := ⟨h.kind.symm, h.text.symm, h.place.symm⟩

theorem Alike.endsStatement (h : Alike f g k l) : k.EndsStatement = l.EndsStatement :=
  propext ⟨fun ⟨t, ht, ha⟩ => ⟨t, ht, h.accepts ha⟩, fun ⟨t, ht, ha⟩ => ⟨t, ht, h.symm.accepts ha⟩⟩

end Token

/-- Places do not matter to what may follow a token. -/
theorem Steady.alike {f g : Place → Place} {ks ls : List Token} (h : AllAlike f g ks ls)
    {first : Prop} (hs : Steady first ks) : Steady first ls := by
  induction h generalizing first with
  | nil => trivial
  | cons head tail ih =>
    obtain ⟨reference, opens, rest⟩ := hs
    refine ⟨fun hr => ?_, fun hf hn => ?_, ?_⟩
    · rw [Token.IsReference, ← head.kind] at hr
      exact reference hr
    · obtain ⟨l, hl, ho⟩ := opens hf (head.symm.accepts hn)
      cases tail with
      | nil => cases hl
      | cons next _ =>
        cases hl
        exact ⟨_, rfl, ho.imp next.accepts next.accepts⟩
    · rw [← head.endsStatement]
      exact ih rest

namespace Grammar
variable {s t : Script}

/-- Where a number comes that the end of a word follows, no script is read. -/
theorem false_of_number {us : List Token} {here there next : Cursor} {k : Token}
    (steady : Steady True (us ++ [k])) (laid : Laid here us there) (hat : At there k next)
    (number : k.kind = .number) {c : Char} {v : Text} (rest : next.rest = c :: v)
    (continues : Lexeme.continuesWord c = true) {ks : List Token} (said : Says (.script t) ks)
    (laid' : LaidToEnd here ks) : False := by
  obtain ⟨ms, rfl, end'⟩ := front_of_steady steady said.steady
    (laid_append_iff.2 ⟨there, laid, .cons hat (.nil _)⟩) laid'
  have blank : Text.isBlank c = false := by
    by_contra blank
    rw [Lexeme.not_continuesWord_of_isBlank (by simpa using blank)] at continues
    cases continues
  have stays : afterSkip next = next := by
    refine afterSkip_of_gapPiece (rest ▸ gapPiece_of_head blank ?_)
    rintro rfl
    exact absurd continues (by decide)
  cases ms with
  | nil =>
    obtain ⟨_, laid, done⟩ := end'
    cases laid
    rw [stays, rest] at done
    cases done
  | cons m ms =>
    obtain ⟨_, hat', -⟩ := laidToEnd_cons_iff.1 end'
    have symbol : m.kind = .symbol :=
      (List.isChain_append.1 said.numbered).2.2 k (by simp) m rfl number
    obtain ⟨split, begins, -⟩ := at_iff.1 hat'
    rw [stays, rest] at split
    obtain ⟨d, w, text, -⟩ := begins.head
    rw [text, List.cons_append] at split
    rw [symbol, text, ← (List.cons.inj split).1] at begins
    rw [Lexeme.not_continuesWord_of_symbol begins] at continues
    cases continues

end Grammar

/-! ### Fields that start with a digit -/

namespace Script
variable {s : Script}

/-- A field in the script has a name that starts with a digit. -/
def HasDigitField (s : Script) : Prop :=
  ∃ p e n, s.Holds (.expr (.member p e n)) ∧ ∃ c ∈ n.head?, isDigit c = true

/-- A field is rendered behind a point. -/
theorem infix_of_member (ok : s.WellShaped) {p : Place} {e : Expr} {n : Text}
    (h : s.Holds (.expr (.member p e n))) :
    [Line.mark '.', some (.identifier, n)] <:+: Script.line s := by
  obtain ⟨t, ht, within⟩ := id h
  have whole := ok.isWhole_of_name h id rfl
  have last : [Line.mark '.', some (.identifier, n)] <:+: (Node.expr (.member p e n)).line :=
    ⟨e.line, [], by simp [Node.line, Expr.line, reclassify_of_isWhole whole]⟩
  exact last.trans (within.line_infix.trans (Script.line_infix ht))

/-- The line lies as it is where no field starts with a digit. -/
theorem lies_of_not_hasDigitField (ok : s.WellShaped) (h : ¬ s.HasDigitField) :
    Lies (fun _ => False) (Script.line s) [] := by
  have lies := lies_line ok fun p e n hn => (⟨p, e, hn⟩ : ∃ p e, s.Holds (.expr (.member p e n)))
  refine lies.stays_or.resolve_right ?_
  rintro ⟨us, kind, vs, -, -, n, m, -, ⟨p, e, holds⟩, -, digit, -⟩
  exact h ⟨p, e, n, holds, digit⟩

open Grammar in
/-- Where a field starts with a digit nothing is read from the rendering. -/
theorem not_read_of_hasDigitField (ok : s.WellShaped) (h : s.HasDigitField) (settings : Settings)
    (t : Script) : parseWith settings s.render ≠ .ok t := by
  intro read
  obtain ⟨p, e, n, holds, digit⟩ := h
  have lies : Lies (fun _ => True) (Script.line s) [] := lies_line ok fun _ _ _ _ => trivial
  obtain ⟨us, kind, vs, line, lies, sticks⟩ :=
    lies.stays_or.resolve_left (Line.not_lies_of_infix digit (infix_of_member ok holds))
  have start := afterSkip_render s
  rw [line, Line.text_append, List.append_assoc] at start
  obtain ⟨ks, there, o, laid, alike, point⟩ := laid_of_lies lies start
  obtain ⟨k, next, c, v, hat, number, rest, continues⟩ := exists_stuck sticks point
  have steady := (says_line ok).steady
  rw [line, Line.tokens_append, Line.tokens_token] at steady
  have front : Steady True (us.tokens ++ [⟨k.kind, k.text, 0⟩]) := by
    refine steady.front ?_ ?_ ?_
    · rintro (⟨-, text⟩ | ⟨-, text⟩) <;> cases text
    · rintro (kind | kind) <;> cases number.symm.trans kind
    · exact fun kind => by cases number.symm.trans kind
  have stuck : AllAlike id (Option.map fun _ => 0) [⟨k.kind, k.text, 0⟩] [k] :=
    .cons ⟨rfl, rfl, rfl⟩ .nil
  have steady' := Steady.alike (List.rel_append alike stuck) front
  obtain ⟨ls, laid', said', -⟩ := says_of_parseWith read
  exact false_of_number steady' laid hat number rest continues said' laid'

open Grammar in
/-- Where no field starts with a digit, tokens of the rendering say the script. -/
theorem exists_says_render (ok : s.WellShaped) (h : ¬ s.HasDigitField) :
    ∃ ks t, LaidToEnd (.start s.render) ks ∧ Says (.script t) ks ∧
      Statement.mapPlacesList Place.first s = Statement.mapPlacesList (Option.map fun _ => 0) t := by
  obtain ⟨ks, laid, alike⟩ := laidToEnd_render (lies_of_not_hasDigitField ok h)
  have origin : id none = Option.map (fun _ : Nat => 0) none := rfl
  obtain ⟨t, said, places⟩ := (says_line ok).alike origin alike
  rw [← Statement.mapPlacesList_eq_map, ← Statement.mapPlacesList_eq_map,
    Statement.mapPlacesList_id] at places
  exact ⟨ks, t, laid, said, places⟩

/-! ### Reading again -/

open Grammar (judge parseWith_of_says says_of_parseWith sealed_of_parseWith Settings)

/-- What is read from a source is rendered as a text that is read as the same script, places aside,
where the settings are deep enough, and that nothing is read from with any settings if a field has
a name that starts with a digit. -/
theorem render_parseWith {settings : Settings} {source : Text} {s : Script}
    (h : parseWith settings source = .ok s) :
    (¬ s.HasDigitField → ∃ t, s.same t = true ∧ ReadAs s.render t ∧
      ∀ settings : Settings, judge settings s.render ≠ .tooDeep →
        parseWith settings s.render = .ok t) ∧
    (s.HasDigitField → ∀ settings : Settings, ∃ e, parseWith settings s.render = .error e) := by
  obtain ⟨ks, ⟨stop, laid, -⟩, said, -⟩ := says_of_parseWith h
  have ok := wellShaped_of_says laid said
  constructor
  · intro fields
    obtain ⟨ls, t, laid', said', places⟩ := exists_says_render ok fields
    have proper : ∀ k ∈ ks, k.IsName → Keyword.isKeyword k.text = false := fun k hk => by
      obtain ⟨_, _, hat⟩ := laid.exists_at hk
      exact hat.not_keyword
    have sealed : ∀ u ∈ t, (Node.statement u).Sealed := by
      rw [← Node.sealed_mapPlacesList, ← places, Node.sealed_mapPlacesList]
      exact sealed_of_parseWith h
    have read (settings' : Settings) := parseWith_of_says settings' said' sealed laid'
    exact ⟨t, same_of_mapPlaces places (allNumbers_words said proper),
      readAs_of_says said' sealed laid',
      fun settings' shallow => (read settings').resolve_right fun deep => shallow deep.1⟩
  · intro fields settings'
    cases read : parseWith settings' s.render with
    | ok t => exact absurd read (not_read_of_hasDigitField ok fields settings' t)
    | error e => exact ⟨e, rfl⟩

theorem eq_ok_field {r : Except Failure Script} {n : Text}
    (h : (match r with
      | .ok [.assignment (some 0) ['a'] (.member (some 2) (.variable (some 2) ['b']) m)] => m == n
      | _ => false) = true) :
    r = .ok [.assignment (some 0) ['a'] (.member (some 2) (.variable (some 2) ['b']) n)] := by
  split at h
  · obtain rfl := beq_iff_eq.1 h
    rfl
  · cases h

/-- A field that starts with a letter, and one that starts with a digit. -/
theorem render_parseWith_field :
    (∃ s t, parseWith ⟨60, true⟩ (lit "a=b.c;") = .ok s ∧ s.same t = true ∧ ReadAs s.render t) ∧
    ∃ s, parseWith ⟨60, true⟩ (lit "a=b. 1c;") = .ok s ∧
      ∀ settings, ∃ e, parseWith settings s.render = .error e := by
  have letter : parseWith ⟨60, true⟩ (lit "a=b.c;") =
      .ok [.assignment (some 0) ['a'] (.member (some 2) (.variable (some 2) ['b']) ['c'])] :=
    eq_ok_field (by decide +kernel)
  have digit : parseWith ⟨60, true⟩ (lit "a=b. 1c;") =
      .ok [.assignment (some 0) ['a'] (.member (some 2) (.variable (some 2) ['b']) ['1', 'c'])] :=
    eq_ok_field (by decide +kernel)
  have fields : ¬ HasDigitField
      [.assignment (some 0) ['a'] (.member (some 2) (.variable (some 2) ['b']) ['c'])] := by
    rintro ⟨p, e, n, ⟨u, hu, w⟩, c, hc, hd⟩
    obtain rfl := List.mem_singleton.1 hu
    cases w with
    | child hm w =>
      obtain rfl := List.mem_singleton.1 hm
      cases w with
      | self =>
        obtain rfl : 'c' = c := Option.some.inj hc
        exact absurd hd (by decide)
      | child hm w =>
        obtain rfl := List.mem_singleton.1 hm
        cases w with
        | child hm _ => cases hm
  constructor
  · obtain ⟨t, same, read, -⟩ := (render_parseWith letter).1 fields
    exact ⟨_, t, letter, same, read⟩
  · have within : (Node.expr (.member (some 2) (.variable (some 2) ['b']) ['1', 'c'])).Within
        (.statement (.assignment (some 0) ['a']
          (.member (some 2) (.variable (some 2) ['b']) ['1', 'c']))) :=
      .child (List.mem_singleton_self _) (.self _)
    exact ⟨_, digit, (render_parseWith digit).2
      ⟨_, _, _, ⟨_, List.mem_singleton_self _, within⟩, '1', rfl, by decide⟩⟩

end Script

end SolidScript
