import SolidScript.Grammar.Terminal

/-!
# Lexical — names and keywords

A terminal reads a name or a keyword off the text itself.  A keyword is read where a name is and
the name is that keyword (`keywordReader_eq_some_iff`), so the terminal for names refuses exactly
the names that are keywords and those that are the front of a numeral (`identifierReader_eq`).
-/

namespace SolidScript.Lexeme
open Terminal (anyKeyword identifierReader keywordReader numberAhead)
open Reader
open Text (isDigit isWord)

/-! ### Characters of words -/

/-- Names start with a dollar sign, an underscore, a letter or a digit. -/
theorem startsName_iff {c : Char} : startsName c = true ↔ c = '$' ∨ c = '_' ∨ c.isAlphanum := by
  simp [startsName, or_assoc]

/-- A digit starts a name. -/
theorem startsName_of_isDigit {c : Char} (h : isDigit c = true) : startsName c = true := by
  have h' : c.isDigit = true := h
  simp [startsName, Char.isAlphanum, h']

/-- What a name starts with goes on with a word. -/
theorem continuesWord_of_startsName {c : Char} (h : startsName c = true) :
    continuesWord c = true := by
  rcases startsName_iff.1 h with rfl | rfl | h
  · decide
  · decide
  · simp [continuesWord, isWord, h]

/-- A part of a word goes on with a word. -/
theorem continuesWord_of_isWord {c : Char} (h : isWord c = true) : continuesWord c = true := by
  simp [continuesWord, h]

/-- A word ends where neither a character that starts a name nor a word character follows. -/
theorem stops_continuesWord_iff {t : Text} :
    stops continuesWord t = true ↔ stops startsName t = true ∧ stops isWord t = true := by
  cases t with
  | nil => simp [stops]
  | cons c r =>
    simp only [stops, Bool.not_eq_true']
    constructor
    · intro h
      constructor
      · cases hs : startsName c with
        | false => rfl
        | true => rw [continuesWord_of_startsName hs] at h; cases h
      · cases hw : isWord c with
        | false => rfl
        | true => rw [continuesWord_of_isWord hw] at h; cases h
    · rintro ⟨hs, hw⟩
      have hd : c ≠ '$' := fun he => by rw [startsName_iff.2 (.inl he)] at hs; cases hs
      simp [continuesWord, hw, hd]

/-! ### Names -/

/-- A name is characters that start one, as many as there are, and then word characters. -/
theorem name_eq_some_iff {t u r : Text} :
    name t = some (u, r) ↔
      ∃ a b, u = a ++ b ∧ t = a ++ (b ++ r) ∧ a ≠ [] ∧ (∀ c ∈ a, startsName c = true) ∧
        stops startsName (b ++ r) = true ∧ (∀ c ∈ b, isWord c = true) ∧
        stops isWord r = true := by
  constructor
  · intro h
    obtain ⟨a, m, b, ha, hb, rfl⟩ := andThen_eq_some_iff.1 h
    obtain ⟨rfl, hn, hs, hm⟩ := some1_eq_some_iff.1 ha
    obtain ⟨b', r', rfl, hw, hr⟩ := exists_run isWord m
    rw [all_append hw hr] at hb
    cases hb
    exact ⟨a, b, rfl, rfl, hn, hs, hm, hw, hr⟩
  · rintro ⟨a, b, rfl, rfl, hn, hs, hm, hw, hr⟩
    exact andThen_eq_some_iff.2
      ⟨a, b ++ r, b, some1_append hn hs hm, all_append hw hr, rfl⟩

/-- Characters that start a name are a name where the word ends. -/
theorem name_append {u r : Text} (hn : u ≠ []) (hu : ∀ c ∈ u, startsName c = true)
    (hr : stops continuesWord r = true) : name (u ++ r) = some (u, r) := by
  have stop := stops_continuesWord_iff.1 hr
  exact name_eq_some_iff.2 ⟨u, [], (List.append_nil u).symm, rfl, hn, hu, stop.1, by simp, stop.2⟩

/-- A name goes on as long as its word does. -/
theorem name_append_longer {u r : Text} (hn : u ≠ []) (hu : ∀ c ∈ u, startsName c = true)
    (hr : stops continuesWord r = false) :
    ∃ v s, name (u ++ r) = some (v, s) ∧ u.length < v.length := by
  obtain ⟨a, m, rfl, ha, hm⟩ := exists_run startsName r
  obtain ⟨b, s, rfl, hb, hs⟩ := exists_run isWord m
  refine ⟨(u ++ a) ++ b, s, name_eq_some_iff.2 ⟨u ++ a, b, rfl, by simp, by simp [hn], ?_, hm, hb, hs⟩,
    ?_⟩
  · intro c hc
    rcases List.mem_append.1 hc with hc | hc
    · exact hu c hc
    · exact ha c hc
  · cases a with
    | cons c a => simp only [List.length_append, List.length_cons]; omega
    | nil =>
      cases b with
      | cons c b => simp only [List.length_append, List.length_cons]; omega
      | nil =>
        have stop : stops continuesWord s = true := stops_continuesWord_iff.2 ⟨hm, hs⟩
        exact absurd (stop.symm.trans hr) (by decide)

/-- No name is where none starts. -/
theorem name_of_not_startsName {t : Text} (h : stops startsName t = true) : name t = none := by
  simp [name, andThen, some1_of_stops h]

/-- A name is read wherever one starts. -/
theorem name_isSome_of_startsName {c : Char} {t : Text} (h : startsName c = true) :
    ∃ u r, name (c :: t) = some (u, r) := by
  have : some1 startsName (c :: t) ≠ none := by simp [some1, andThen, one, h, all]
  obtain ⟨⟨a, m⟩, ha⟩ := Option.ne_none_iff_exists'.1 this
  exact ⟨_, _, andThen_eq_some_iff.2 ⟨a, m, _, ha, rfl, rfl⟩⟩

/-! ### Keywords -/

theorem notBefore_of_some {a : Reader} {t u r : Text} (h : a t = some (u, r)) (p : Char → Bool) :
    notBefore a p t = if stops p r then some (u, r) else none := by
  unfold notBefore
  rw [h]

/-- A reader reads what it does if no such character follows. -/
theorem notBefore_eq_some_iff {a : Reader} {p : Char → Bool} {t u r : Text} :
    notBefore a p t = some (u, r) ↔ a t = some (u, r) ∧ stops p r = true := by
  unfold notBefore
  cases h : a t with
  | none => simp
  | some o =>
    obtain ⟨v, s⟩ := o
    by_cases hs : stops p s = true
    · simp only [hs, if_true, Option.some.injEq, Prod.mk.injEq]
      constructor
      · rintro ⟨rfl, rfl⟩; exact ⟨⟨rfl, rfl⟩, hs⟩
      · rintro ⟨h, -⟩; exact h
    · simp only [hs, Bool.false_eq_true, if_false, Option.some.injEq, Prod.mk.injEq, reduceCtorEq,
        false_iff, not_and, and_imp]
      rintro rfl rfl
      exact hs

/-- Every character of a keyword starts names. -/
theorem startsName_of_mem_spelling (k : Keyword) : ∀ c ∈ k.spelling, startsName c = true := by
  refine List.all_eq_true.1 ?_
  cases k <;> decide

theorem spelling_ne_nil (k : Keyword) : k.spelling ≠ [] := by cases k <;> decide

/-- A keyword is read where a name is and the name is that keyword. -/
theorem keywordReader_eq_some_iff {k : Keyword} {t u r : Text} :
    keywordReader k t = some (u, r) ↔ name t = some (u, r) ∧ u = k.spelling := by
  rw [keywordReader, notBefore_eq_some_iff, word_eq_some_iff]
  constructor
  · rintro ⟨⟨rfl, rfl⟩, hr⟩
    exact ⟨name_append (spelling_ne_nil k) (startsName_of_mem_spelling k) hr, rfl⟩
  · rintro ⟨h, rfl⟩
    obtain ⟨a, b, hu, rfl, -, -, hm, -, hr⟩ := name_eq_some_iff.1 h
    have hb : b = [] := by
      cases b with
      | nil => rfl
      | cons c b =>
        have hc : startsName c = true :=
          startsName_of_mem_spelling k c (by rw [hu]; simp)
        rw [stops_iff.1 hm c (b ++ r) rfl] at hc
        cases hc
    subst hb
    rw [List.append_nil] at hu
    exact ⟨⟨rfl, by rw [hu]; rfl⟩, stops_continuesWord_iff.2 ⟨hm, hr⟩⟩

/-- The first of the readers reads something if any of them does. -/
theorem firstOf_isSome_iff {readers : List Reader} {t : Text} :
    (firstOf readers t).isSome ↔ ∃ a ∈ readers, (a t).isSome := by
  induction readers with
  | nil => simp [firstOf]
  | cons a others ih =>
    unfold firstOf orElse
    cases h : a t with
    | none => simp [h, ih]
    | some o => simp [h]

/-- A keyword is read exactly where the name that is read is one. -/
theorem anyKeyword_isSome_iff {t : Text} :
    (anyKeyword t).isSome ↔ ∃ u r, name t = some (u, r) ∧ Keyword.isKeyword u = true := by
  rw [anyKeyword, firstOf_isSome_iff]
  constructor
  · rintro ⟨a, ha, h⟩
    obtain ⟨k, -, rfl⟩ := List.mem_map.1 ha
    obtain ⟨⟨u, r⟩, hu⟩ := Option.isSome_iff_exists.1 h
    have := keywordReader_eq_some_iff.1 hu
    exact ⟨u, r, this.1, Keyword.isKeyword_iff.2 ⟨k, this.2.symm⟩⟩
  · rintro ⟨u, r, hu, hk⟩
    obtain ⟨k, rfl⟩ := Keyword.isKeyword_iff.1 hk
    refine ⟨_, List.mem_map.2 ⟨k, Keyword.mem_all k, rfl⟩, ?_⟩
    rw [keywordReader_eq_some_iff.2 ⟨hu, rfl⟩]
    rfl

/-- The names that the terminal for names reads are no keywords and no fronts of numerals. -/
theorem identifierReader_eq_some_iff {t u r : Text} :
    identifierReader t = some (u, r) ↔
      name t = some (u, r) ∧ Keyword.isKeyword u = false ∧ numberAhead t = none := by
  unfold identifierReader excluding
  cases hn : numberAhead t with
  | some o => simp
  | none =>
    by_cases hk : (anyKeyword t).isSome = true
    · obtain ⟨v, s, hv, hkv⟩ := anyKeyword_isSome_iff.1 hk
      simp only [hk, if_true, Option.isSome_none, Bool.false_eq_true, if_false, reduceCtorEq,
        false_iff, not_and]
      intro hu
      rw [hv] at hu
      cases hu
      simp [hkv]
    · simp only [hk, Option.isSome_none, Bool.false_eq_true, if_false, and_true, iff_self_and]
      intro hu
      cases hku : Keyword.isKeyword u with
      | false => rfl
      | true => exact absurd (anyKeyword_isSome_iff.2 ⟨u, r, hu, hku⟩) hk

/-- A name starts with the character that its text starts with. -/
theorem head_of_name {c : Char} {t u r : Text} (h : name (c :: t) = some (u, r)) :
    u.head? = some c := by
  have hs := splits_name.append_eq h
  cases u with
  | nil => exact absurd rfl (takes_name.ne_nil h)
  | cons d u => rw [(List.cons.inj hs).1]; rfl

/-- A name that starts with a digit is no keyword. -/
theorem isKeyword_of_isDigit {c : Char} {u : Text} (hc : isDigit c = true) (h : u.head? = some c) :
    Keyword.isKeyword u = false := by
  cases hk : Keyword.isKeyword u with
  | false => rfl
  | true =>
    obtain ⟨k, rfl⟩ := Keyword.isKeyword_iff.1 hk
    have letters : k.spelling.head?.all isDigit = false := by cases k <;> decide
    rw [h, Option.all_some, hc] at letters
    cases letters

/-! ### Where a name is or is not -/

/-- The reader of a keyword reads the name that is there, if it is that keyword. -/
theorem keywordReader_of_name {k : Keyword} {t u r : Text} (h : name t = some (u, r)) :
    keywordReader k t = if u = k.spelling then some (u, r) else none := by
  by_cases hu : u = k.spelling
  · rw [if_pos hu]
    exact keywordReader_eq_some_iff.2 ⟨h, hu⟩
  · rw [if_neg hu]
    cases hk : keywordReader k t with
    | none => rfl
    | some o =>
      obtain ⟨hn, hs⟩ := keywordReader_eq_some_iff.1 hk
      rw [h] at hn
      cases hn
      exact absurd hs hu

/-- No keyword is read where no name is. -/
theorem keywordReader_of_no_name {k : Keyword} {t : Text} (h : name t = none) :
    keywordReader k t = none := by
  cases hk : keywordReader k t with
  | none => rfl
  | some o =>
    have := (keywordReader_eq_some_iff.1 hk).1
    rw [h] at this
    cases this

/-- A name is read where one is and no number is ahead, unless it is a keyword. -/
theorem identifierReader_of_name {t u r : Text} (h : name t = some (u, r))
    (hn : numberAhead t = none) :
    identifierReader t = if Keyword.isKeyword u then none else some (u, r) := by
  cases hk : Keyword.isKeyword u with
  | false => exact identifierReader_eq_some_iff.2 ⟨h, hk, hn⟩
  | true =>
    cases hi : identifierReader t with
    | none => rfl
    | some o =>
      obtain ⟨hm, hf, -⟩ := identifierReader_eq_some_iff.1 hi
      rw [h] at hm
      cases hm
      rw [hf] at hk
      cases hk

/-- No name is read where a number is ahead. -/
theorem identifierReader_of_numberAhead {t : Text} (hn : (numberAhead t).isSome) :
    identifierReader t = none := by
  simp [identifierReader, excluding, hn]

theorem identifierReader_of_no_name {t : Text} (h : name t = none) :
    identifierReader t = none := by
  cases hi : identifierReader t with
  | none => rfl
  | some o =>
    have := (identifierReader_eq_some_iff.1 hi).1
    rw [h] at this
    cases this

/-! ### References to files -/

/-- The words that references to files start with. -/
def referenceWords : List Text := [Text.lit "use", Text.lit "include"]

/-- A blank ends a word. -/
theorem not_continuesWord_of_isBlank {c : Char} (h : Text.isBlank c = true) :
    continuesWord c = false := by
  have blanks : Text.blanks.all (fun c => !continuesWord c) = true := by decide +kernel
  simpa using List.all_eq_true.1 blanks c (Text.isBlank_iff.1 h)

/-- A reference is its word, blanks, and a path between angle brackets. -/
theorem reference_eq_some_iff {w t u r : Text} :
    reference w t = some (u, r) ↔
      ∃ b p, u = w ++ (b ++ '<' :: (p ++ ['>'])) ∧ t = u ++ r ∧
        (∀ c ∈ b, Text.isBlank c = true) ∧ '>' ∉ p := by
  constructor
  · intro h
    have hs := (splits_reference w).append_eq h
    obtain ⟨w', m, v, hw, hv, rfl⟩ := andThen_eq_some_iff.1 h
    obtain ⟨rfl, -⟩ := word_eq_some_iff.1 hw
    obtain ⟨b, m₁, v₁, hb, hv₁, rfl⟩ := andThen_eq_some_iff.1 hv
    obtain ⟨o, m₂, v₂, ho, hv₂, rfl⟩ := andThen_eq_some_iff.1 hv₁
    obtain ⟨rfl, -⟩ := word_eq_some_iff.1 ho
    obtain ⟨p, m₃, v₃, hp, hv₃, rfl⟩ := andThen_eq_some_iff.1 hv₂
    obtain ⟨rfl, -⟩ := word_eq_some_iff.1 hv₃
    obtain ⟨rfl, -⟩ : m.takeWhile Text.isBlank = b ∧ _ := by simpa [all] using hb
    obtain ⟨rfl, -⟩ : m₂.takeWhile (· != '>') = p ∧ _ := by simpa [all] using hp
    refine ⟨_, _, rfl, hs.symm, fun c hc => List.all_eq_true.1 List.all_takeWhile c hc, fun hm => ?_⟩
    have := List.all_eq_true.1 (List.all_takeWhile (l := m₂) (p := (· != '>'))) '>' hm
    simp at this
  · rintro ⟨b, p, rfl, rfl, hb, hp⟩
    have blanks : all Text.isBlank (b ++ '<' :: (p ++ '>' :: r)) = some (b, '<' :: (p ++ '>' :: r)) :=
      all_append hb (by simp only [stops]; decide)
    have path : all (· != '>') (p ++ '>' :: r) = some (p, '>' :: r) :=
      all_append (fun c hc => by simpa using (fun he => hp (he ▸ hc) : c ≠ '>')) (by simp [stops])
    refine andThen_eq_some_iff.2 ⟨w, b ++ '<' :: (p ++ '>' :: r), _,
      word_eq_some_iff.2 ⟨rfl, by simp⟩, ?_, rfl⟩
    refine andThen_eq_some_iff.2 ⟨b, _, _, blanks, ?_, rfl⟩
    refine andThen_eq_some_iff.2 ⟨['<'], p ++ '>' :: r, _, word_eq_some_iff.2 ⟨rfl, rfl⟩, ?_, rfl⟩
    exact andThen_eq_some_iff.2 ⟨p, _, ['>'], path, word_eq_some_iff.2 ⟨rfl, rfl⟩, rfl⟩

theorem startsName_of_mem_referenceWords :
    ∀ w ∈ referenceWords, w ≠ [] ∧ ∀ c ∈ w, startsName c = true := by
  have words : referenceWords.all (fun w => !w.isEmpty && w.all startsName) = true := by decide
  simpa [Bool.and_eq_true] using words

/-- A reference starts with a name that is its word, and is longer. -/
theorem name_of_reference {w t u r : Text} (hw : w ∈ referenceWords)
    (h : reference w t = some (u, r)) : ∃ s, name t = some (w, s) ∧ w.length < u.length := by
  obtain ⟨b, p, rfl, rfl, hb, -⟩ := reference_eq_some_iff.1 h
  obtain ⟨hn, hs⟩ := startsName_of_mem_referenceWords w hw
  refine ⟨(b ++ '<' :: (p ++ ['>'])) ++ r, ?_, by simp only [List.length_append, List.length_cons]; omega⟩
  rw [List.append_assoc]
  refine name_append hn hs ?_
  cases b with
  | nil => simp only [List.nil_append, List.cons_append, stops]; decide
  | cons c b => simp [stops, not_continuesWord_of_isBlank (hb c List.mem_cons_self)]

end SolidScript.Lexeme
