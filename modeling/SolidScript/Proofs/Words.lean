import SolidScript.Proofs.Phrase.Source
import SolidScript.Script.Node
import SolidScript.Script.Words

/-!
# Words — a script says what its tokens say

The words of a script are those of the tokens that spell it: in the same order, none lost and none
read twice.  The tokens are those of the source that the script is read from, if no name in the
script is `use` or `include`.

* `Spells.words`, `Says.words`: the words of a construct are those of its tokens.
* `Statement.hasName_of_mem_words`: a name among the words is the name of a construct.
* `words_of_parseWith`: the words of a script are those of the tokens of its source.
-/

namespace SolidScript

/-! ### Words of tokens -/

/-- Marks say no word. -/
theorem Token.word?_of_isMark {k : Token} {m : Mark} (h : k.IsMark m) : k.word? = none := by
  have : [m.char] ∉ Word.symbols := by cases m <;> decide
  simp [word?, h.1, h.2, this]

theorem Token.word?_of_period {k : Token} (h : Terminal.period.Accepts k) : k.word? = none := by
  simp [word?, h.1, h.2, Word.symbols]

/-- A name says itself. -/
theorem Token.word?_of_isName {k : Token} (h : k.IsName) : k.word? = some (.name k.text) := by
  simp [word?, show k.kind = .identifier from h]

/-- The keywords that are read are the literals. -/
theorem Token.word?_of_isWord {k : Token} {w : Keyword} (h : k.IsWord w) :
    k.word? = if w ∈ [Keyword.trueWord, .falseWord, .undefWord] then some (.literal w) else none := by
  simp only [word?, h.1, h.2]
  cases w <;> rfl

/-- A symbol says its operator, if it is one. -/
theorem Token.word?_of_symbol {k : Token} (h : k.kind = .symbol) :
    k.word?.toList = Word.ofSymbol k.text := by
  simp only [word?, h, Word.ofSymbol]
  split <;> rfl

theorem Token.filterMap_word?_cons (k : Token) (ks : List Token) :
    (k :: ks).filterMap Token.word? = k.word?.toList ++ ks.filterMap Token.word? := by
  cases h : k.word? <;> simp [h]

/-! ### Words of phrases -/

/-- The words of a phrase. -/
def Phrase.words : Phrase → List Word
  | expr _ e     => e.words
  | suffix (.member n) => [.name n]
  | suffix (.index e) => e.words
  | argument a   => a.words
  | arguments as => Argument.wordsList as
  | items es     => Expr.wordsList es
  | clauses gs   => Argument.wordsGroups gs

theorem Argument.wordsList_append (as bs : List Argument) :
    wordsList (as ++ bs) = wordsList as ++ wordsList bs := by
  induction as with
  | nil => rfl
  | cons a as ih => simp [wordsList, ih]

theorem Argument.wordsList_flatten (gs : List (List Argument)) :
    wordsList gs.flatten = wordsGroups gs := by
  induction gs with
  | nil => rfl
  | cons g gs ih => simp [wordsGroups, wordsList_append, ih]

/-- An operator is written as it was read. -/
theorem BinaryOp.text_of_ofText? {t : Text} {b : BinaryOp} (h : ofText? t = some b) : b.text = t := by
  unfold ofText? at h
  split at h
  · rename_i c hc
    cases h
    simpa [text] using List.find?_some hc
  · obtain ⟨o, ho, rfl⟩ := Option.map_eq_some_iff.1 h
    simpa [text] using List.find?_some ho

/-- A modifier is written as it was read. -/
theorem Modifier.text_of_ofText? {t : Text} {m : Modifier} (h : ofText? t = some m) : m.text = t := by
  simpa using List.find?_some h

/-- The words of an operand with an operator before it. -/
theorem OfTree.words_of_signed? {p : Place} {t : Text} {e e' : Expr} (h : signed? p t e = some e') :
    e'.words = Word.ofSymbol t ++ e.words := by
  unfold signed? at h
  split at h <;> cases h <;> simp [Expr.words, UnaryOp.text, Word.ofSymbol, Word.symbols]

/-- The words of a phrase are those of the tokens that spell it. -/
theorem Spells.words {p : Phrase} {ks : List Token} (h : Spells p ks) :
    p.words = ks.filterMap Token.word? := by
  induction h with
  | bound _ _ _ ih ih' =>
    simp_all [Phrase.words, Expr.words, Argument.wordsList_flatten]
  | unbound _ ih | unconditional _ ih | operand _ ih | unsigned _ ih | base _ ih => exact ih
  | @led l hl k o c as e ks ls hk ho _ hc _ ih ih' =>
    have hw : k.word? = none := by rw [Token.word?_of_isWord hk]; cases l <;> rfl
    simp_all [Phrase.words, Expr.words, Token.word?_of_isMark ho, Token.word?_of_isMark hc]
  | ternary _ hq _ hc _ ih ih' ih'' =>
    simp_all [Phrase.words, Expr.words, Token.word?_of_isMark hq, Token.word?_of_isMark hc]
  | @operation t a b op o ks ls _ ho hop _ ih ih' =>
    have hs : o.kind = .symbol := by cases t <;> exact ho.1
    have hw := Token.word?_of_symbol hs
    rw [← BinaryOp.text_of_ofText? hop] at hw
    simp_all [Phrase.words, Expr.words, List.filterMap_append, Token.filterMap_word?_cons]
  | signed hk _ he ih =>
    have hw := Token.word?_of_symbol hk.1
    simp_all [Phrase.words, OfTree.words_of_signed? he, Token.filterMap_word?_cons]
  | @accessed e s ks ls _ _ ih ih' =>
    cases s <;> simp_all [Phrase.words, Expr.words, Suffix.onto]
  | member hp hn =>
    simp [Phrase.words, Token.word?_of_period hp, Token.word?_of_isName hn]
  | index ho _ hc ih =>
    simp_all [Phrase.words, Token.word?_of_isMark ho, Token.word?_of_isMark hc]
  | parenthesized ho _ hc ih =>
    simp_all [Phrase.words, Token.word?_of_isMark ho, Token.word?_of_isMark hc]
  | @literal k w e hk he =>
    have hw := Token.word?_of_isWord hk
    cases w <;> cases he <;> simp_all [Phrase.words, Expr.words]
  | text hk =>
    simp [Phrase.words, Expr.words, Token.word?, show _ = TokenKind.string from hk]
  | number hk hv =>
    simp [Phrase.words, Expr.words, Token.word?, show _ = TokenKind.number from hk, hv]
  | name hk => simp [Phrase.words, Expr.words, Token.word?_of_isName hk]
  | call hn ho _ hc ih =>
    simp_all [Phrase.words, Expr.words, Token.word?_of_isName hn, Token.word?_of_isMark ho,
      Token.word?_of_isMark hc]
  | comprehension ho _ hf hp _ hc _ hq ih ih' ih'' =>
    simp_all [Phrase.words, Expr.words, Token.word?_of_isMark ho, Token.word?_of_isWord hf,
      Token.word?_of_isMark hp, Token.word?_of_isMark hc, Token.word?_of_isMark hq]
  | range ho _ hm _ hc ih ih' =>
    simp_all [Phrase.words, Expr.words, Expr.wordsOption, Token.word?_of_isMark ho,
      Token.word?_of_isMark hm, Token.word?_of_isMark hc]
  | steppedRange ho _ hm _ hm' _ hc ih ih' ih'' =>
    simp_all [Phrase.words, Expr.words, Expr.wordsOption, Token.word?_of_isMark ho,
      Token.word?_of_isMark hm, Token.word?_of_isMark hm', Token.word?_of_isMark hc]
  | vector ho _ hc ih =>
    simp_all [Phrase.words, Expr.words, Token.word?_of_isMark ho, Token.word?_of_isMark hc]
  | positional _ ih => simpa [Phrase.words, Argument.words] using ih
  | named hn ha _ ih =>
    simp_all [Phrase.words, Argument.words, Token.word?_of_isName hn, Token.word?_of_isMark ha]
  | noArguments | noItems | noClauses => rfl
  | lastArgument _ ih => simpa [Phrase.words, Argument.wordsList] using ih
  | closedArgument _ hc ih =>
    simpa [Phrase.words, Argument.wordsList, Token.word?_of_isMark hc] using ih
  | nextArgument _ hc _ ih ih' =>
    simp_all [Phrase.words, Argument.wordsList, Token.word?_of_isMark hc]
  | lastItem _ ih => simpa [Phrase.words, Expr.wordsList] using ih
  | closedItem _ hc ih =>
    simpa [Phrase.words, Expr.wordsList, Token.word?_of_isMark hc] using ih
  | nextItem _ hc _ ih ih' =>
    simp_all [Phrase.words, Expr.wordsList, Token.word?_of_isMark hc]
  | clause hk ho _ hc _ ih ih' =>
    simp_all [Phrase.words, Argument.wordsGroups, Token.word?_of_isWord hk,
      Token.word?_of_isMark ho, Token.word?_of_isMark hc]

/-- The words of an expression are those of the tokens that spell it. -/
theorem Spells.expr_words {l : Level} {e : Expr} {ks : List Token} (h : Spells (.expr l e) ks) :
    e.words = ks.filterMap Token.word? := h.words

/-- The words of arguments are those of the tokens that spell them. -/
theorem Spells.arguments_words {as : List Argument} {ks : List Token}
    (h : Spells (.arguments as) ks) : Argument.wordsList as = ks.filterMap Token.word? := h.words

/-! ### Words of statements -/

/-- The words of a parameter are those of the tokens that spell it. -/
theorem SpellsParameter.words {p : Parameter} {ks : List Token} (h : SpellsParameter p ks) :
    p.words = ks.filterMap Token.word? := by
  cases h with
  | plain hn => simp [Parameter.words, Expr.wordsOption, Token.word?_of_isName hn]
  | withDefault hn ha h =>
    simp [Parameter.words, Expr.wordsOption, Token.word?_of_isName hn, Token.word?_of_isMark ha,
      h.expr_words]

/-- The words of parameters are those of the tokens that spell them, commas among these. -/
theorem Commas.words {ps : List Parameter} {ks : List Token} (h : Commas SpellsParameter ps ks) :
    ps.flatMap Parameter.words = ks.filterMap Token.word? := by
  induction h with
  | none => rfl
  | last h => simpa using h.words
  | closed h hc => simpa [Token.word?_of_isMark hc] using h.words
  | next h hc _ ih => simp_all [Token.word?_of_isMark hc, h.words]

/-- The words of a passage. -/
def Passage.words : Passage → List Word
  | statement s             => s.words
  | statements ss | script ss => Statement.wordsList ss

/-- A modifier comes first among the words of the statement that it is applied to. -/
theorem OfTree.words_modify (p : Place) (m : Modifier) (s : Statement) :
    (modify p m s).words = Word.ofSymbol m.text ++ s.words := by
  unfold modify
  split <;> simp [Statement.words, Modifier.words]

/-- The words of the name of a called module. -/
theorem Token.IsCallee.words {k : Token} (h : k.IsCallee)
    (hk : k.IsName → Keyword.isKeyword k.text = false) :
    Word.ofCallee k.text = k.word?.toList := by
  have word {w : Keyword} (hw : k.IsWord w) : Word.ofCallee k.text = [] := by
    rw [hw.2]
    simp [Word.ofCallee, Keyword.isKeyword_iff]
  rcases h with h | h | h | h
  · simp [Word.ofCallee, hk h, Token.word?_of_isName h]
  · rw [word h, Token.word?_of_isWord h]; rfl
  · rw [word h, Token.word?_of_isWord h]; rfl
  · rw [word h, Token.word?_of_isWord h]; rfl

/-- The words of a statement are those of its tokens, if none of these that is a name is a
keyword. -/
theorem Says.words {p : Passage} {ks : List Token} (h : Says p ks)
    (hk : ∀ k ∈ ks, k.IsName → Keyword.isKeyword k.text = false) :
    p.words = ks.filterMap Token.word? := by
  induction h with
  | empty hk' => simp [Passage.words, Statement.words, Token.word?_of_isMark hk']
  | block ho _ hc ih =>
    have ih := ih fun k h => hk k (by simp [h])
    simp_all [Passage.words, Statement.words, Token.word?_of_isMark ho, Token.word?_of_isMark hc]
  | moduleDefinition hm hn ho hp hc _ ih =>
    have ih := ih fun k h => hk k (by simp [h])
    simp_all [Passage.words, Statement.words, Token.word?_of_isWord hm, Token.word?_of_isName hn,
      Token.word?_of_isMark ho, hp.words, Token.word?_of_isMark hc]
  | functionDefinition hf hn ho hp hc ha he hz =>
    simp [Passage.words, Statement.words, Token.word?_of_isWord hf, Token.word?_of_isName hn,
      Token.word?_of_isMark ho, hp.words, Token.word?_of_isMark hc, Token.word?_of_isMark ha,
      he.expr_words, Token.word?_of_isMark hz]
  | assignment hn ha he hz =>
    simp [Passage.words, Statement.words, Token.word?_of_isName hn, Token.word?_of_isMark ha,
      he.expr_words, Token.word?_of_isMark hz]
  | conditional hi ho he hc _ ih =>
    have ih := ih fun k h => hk k (by simp [h])
    simp_all [Passage.words, Statement.words, Statement.wordsOption, Token.word?_of_isWord hi,
      Token.word?_of_isMark ho, he.expr_words, Token.word?_of_isMark hc]
  | alternative hi ho he hc _ hl _ ih ih' =>
    have ih := ih fun k h => hk k (by simp [h])
    have ih' := ih' fun k h => hk k (by simp [h])
    simp_all [Passage.words, Statement.words, Statement.wordsOption, Token.word?_of_isWord hi,
      Token.word?_of_isMark ho, he.expr_words, Token.word?_of_isMark hc,
      Token.word?_of_isWord hl]
  | modified hk' hm _ ih =>
    have ih := ih fun k h => hk k (by simp [h])
    have hw := Token.word?_of_symbol hk'.1
    rw [← Modifier.text_of_ofText? hm] at hw
    simp_all [Passage.words, OfTree.words_modify, Token.filterMap_word?_cons]
  | loop hf ho ha hc _ ih =>
    have ih := ih fun k h => hk k (by simp [h])
    simp_all [Passage.words, Statement.words, Modifier.words, Token.word?_of_isWord hf,
      Token.word?_of_isMark ho, ha.arguments_words, Token.word?_of_isMark hc]
  | @call n o c as s ks ls hn ho ha hc _ ih =>
    have ih := ih fun k h => hk k (by simp [h])
    have hw := hn.words (hk n (by simp))
    simp_all [Passage.words, Statement.words, Modifier.words, Token.filterMap_word?_cons,
      Token.word?_of_isMark ho, ha.arguments_words, Token.word?_of_isMark hc]
  | noStatements | emptyScript => rfl
  | nextStatement _ _ ih ih' | ordinary _ _ ih ih' =>
    have ih := ih fun k h => hk k (by simp [h])
    have ih' := ih' fun k h => hk k (by simp [h])
    simp_all [Passage.words, Statement.wordsList]
  | useFile hk' _ ih =>
    have ih := ih fun k h => hk k (by simp [h])
    simp_all [Passage.words, Statement.wordsList, Statement.words, Token.word?,
      show _ = TokenKind.useFile from hk']
  | includeFile hk' _ ih =>
    have ih := ih fun k h => hk k (by simp [h])
    simp_all [Passage.words, Statement.wordsList, Statement.words, Token.word?,
      show _ = TokenKind.includeFile from hk']

/-! ### Names -/

namespace Node

/-- A construct in the construct has the name. -/
def HasName (t : Text) (n : Node) : Prop := ∃ m : Node, m.Within n ∧ m.name? = some t

/-- A construct has its own name. -/
theorem HasName.of_name? {t : Text} {n : Node} (h : n.name? = some t) : n.HasName t :=
  ⟨n, .self n, h⟩

/-- A construct has the names of those in it. -/
theorem HasName.of_child {t : Text} {c n : Node} (h : c ∈ n.children) (hc : c.HasName t) :
    n.HasName t := by
  obtain ⟨m, hm, hn⟩ := hc
  exact ⟨m, .child h hm, hn⟩

end Node

/-- Symbols say no name. -/
theorem Word.not_mem_ofSymbol {t u : Text} : Word.name t ∉ Word.ofSymbol u := by
  unfold Word.ofSymbol
  split <;> simp

section Names
variable {t : Text}

mutual

/-- A name among the words of an expression is the name of a construct in it. -/
theorem Expr.hasName_of_mem_words :
    ∀ e : Expr, Word.name t ∈ e.words → (Node.expr e).HasName t
  | .undef _, h | .number _ _, h | .text _ _, h => by simp [Expr.words] at h
  | .boolean _ b, h => by simp [Expr.words] at h
  | .variable _ n, h => .of_name? (by simp_all [Expr.words, Node.name?])
  | .member _ e n, h => by
      simp only [Expr.words, List.mem_append, List.mem_singleton, Word.name.injEq] at h
      rcases h with h | rfl
      · exact .of_child (by simp [Node.children, Node.ofExpr]) (e.hasName_of_mem_words h)
      · exact .of_name? rfl
  | .index _ a i, h => by
      simp only [Expr.words, List.mem_append] at h
      rcases h with h | h
      · exact .of_child (by simp [Node.children, Node.ofExpr]) (a.hasName_of_mem_words h)
      · exact .of_child (by simp [Node.children, Node.ofExpr]) (i.hasName_of_mem_words h)
  | .vector _ es, h => by
      obtain ⟨e, he, h⟩ := Expr.hasName_of_mem_wordsList es h
      exact .of_child (by simpa [Node.children, Node.ofExpr] using he) h
  | .range _ a s b, h => by
      simp only [Expr.words, List.mem_append] at h
      rcases h with (h | h) | h
      · exact .of_child (by simp [Node.children, Node.ofExpr]) (a.hasName_of_mem_words h)
      · obtain ⟨e, he, h⟩ := Expr.hasName_of_mem_wordsOption s h
        exact .of_child (by simp [Node.children, Node.ofExpr, show s = some e from he]) h
      · exact .of_child (by simp [Node.children, Node.ofExpr]) (b.hasName_of_mem_words h)
  | .call _ n as, h => by
      simp only [Expr.words, List.mem_cons, Word.name.injEq] at h
      rcases h with rfl | h
      · exact .of_name? rfl
      · obtain ⟨a, ha, h⟩ := Argument.hasName_of_mem_wordsList as h
        exact .of_child (by simpa [Node.children, Node.ofExpr] using ha) h
  | .comprehension _ gs as e, h => by
      simp only [Expr.words, List.mem_append] at h
      rcases h with (h | h) | h
      · obtain ⟨g, hg, a, ha, h⟩ := Argument.hasName_of_mem_wordsGroups gs h
        refine .of_child ?_ h
        simp only [Node.children, Node.ofExpr, List.mem_append, List.mem_map, List.mem_flatten]
        exact .inl (.inl ⟨a, ⟨g, hg, ha⟩, rfl⟩)
      · obtain ⟨a, ha, h⟩ := Argument.hasName_of_mem_wordsList as h
        exact .of_child (by simp [Node.children, Node.ofExpr, ha]) h
      · exact .of_child (by simp [Node.children, Node.ofExpr]) (e.hasName_of_mem_words h)
  | .unary _ o e, h => by
      simp only [Expr.words, List.mem_append, Word.not_mem_ofSymbol, false_or] at h
      exact .of_child (by simp [Node.children, Node.ofExpr]) (e.hasName_of_mem_words h)
  | .binary _ a o b, h => by
      simp only [Expr.words, List.mem_append, Word.not_mem_ofSymbol, or_false] at h
      rcases h with h | h
      · exact .of_child (by simp [Node.children, Node.ofExpr]) (a.hasName_of_mem_words h)
      · exact .of_child (by simp [Node.children, Node.ofExpr]) (b.hasName_of_mem_words h)
  | .ternary _ c a b, h => by
      simp only [Expr.words, List.mem_append] at h
      rcases h with (h | h) | h
      · exact .of_child (by simp [Node.children, Node.ofExpr]) (c.hasName_of_mem_words h)
      · exact .of_child (by simp [Node.children, Node.ofExpr]) (a.hasName_of_mem_words h)
      · exact .of_child (by simp [Node.children, Node.ofExpr]) (b.hasName_of_mem_words h)
  | .led _ _ as e, h => by
      simp only [Expr.words, List.mem_append] at h
      rcases h with h | h
      · obtain ⟨a, ha, h⟩ := Argument.hasName_of_mem_wordsList as h
        exact .of_child (by simp [Node.children, Node.ofExpr, ha]) h
      · exact .of_child (by simp [Node.children, Node.ofExpr]) (e.hasName_of_mem_words h)

theorem Expr.hasName_of_mem_wordsList :
    ∀ es : List Expr, Word.name t ∈ Expr.wordsList es → ∃ e ∈ es, (Node.expr e).HasName t
  | [], h => by simp [Expr.wordsList] at h
  | e :: es, h => by
      simp only [Expr.wordsList, List.mem_append] at h
      rcases h with h | h
      · exact ⟨e, List.mem_cons_self, e.hasName_of_mem_words h⟩
      · obtain ⟨f, hf, h⟩ := Expr.hasName_of_mem_wordsList es h
        exact ⟨f, .tail _ hf, h⟩

theorem Expr.hasName_of_mem_wordsOption :
    ∀ o : Option Expr, Word.name t ∈ Expr.wordsOption o → ∃ e ∈ o, (Node.expr e).HasName t
  | none, h => by simp [Expr.wordsOption] at h
  | some e, h => ⟨e, rfl, e.hasName_of_mem_words h⟩

/-- A name among the words of an argument is the name of a construct in it. -/
theorem Argument.hasName_of_mem_words :
    ∀ a : Argument, Word.name t ∈ a.words → (Node.argument a).HasName t
  | .mk _ none e, h => .of_child (by simp [Node.children]) (e.hasName_of_mem_words h)
  | .mk _ (some n) e, h => by
      simp only [Argument.words, List.mem_cons, Word.name.injEq] at h
      rcases h with rfl | h
      · exact .of_name? rfl
      · exact .of_child (by simp [Node.children]) (e.hasName_of_mem_words h)

theorem Argument.hasName_of_mem_wordsList :
    ∀ as : List Argument, Word.name t ∈ Argument.wordsList as →
      ∃ a ∈ as, (Node.argument a).HasName t
  | [], h => by simp [Argument.wordsList] at h
  | a :: as, h => by
      simp only [Argument.wordsList, List.mem_append] at h
      rcases h with h | h
      · exact ⟨a, List.mem_cons_self, a.hasName_of_mem_words h⟩
      · obtain ⟨b, hb, h⟩ := Argument.hasName_of_mem_wordsList as h
        exact ⟨b, .tail _ hb, h⟩

theorem Argument.hasName_of_mem_wordsGroups :
    ∀ gs : List (List Argument), Word.name t ∈ Argument.wordsGroups gs →
      ∃ g ∈ gs, ∃ a ∈ g, (Node.argument a).HasName t
  | [], h => by simp [Argument.wordsGroups] at h
  | g :: gs, h => by
      simp only [Argument.wordsGroups, List.mem_append] at h
      rcases h with h | h
      · exact ⟨g, List.mem_cons_self, Argument.hasName_of_mem_wordsList g h⟩
      · obtain ⟨g', hg, h⟩ := Argument.hasName_of_mem_wordsGroups gs h
        exact ⟨g', .tail _ hg, h⟩

end

/-- A name among the words of a parameter is the name of a construct in it. -/
theorem Parameter.hasName_of_mem_words {p : Parameter} (h : Word.name t ∈ p.words) :
    (Node.parameter p).HasName t := by
  simp only [Parameter.words, List.mem_cons, Word.name.injEq] at h
  rcases h with rfl | h
  · exact .of_name? rfl
  · obtain ⟨e, he, h⟩ := Expr.hasName_of_mem_wordsOption _ h
    exact .of_child (by simp [Node.children, show p.default = some e from he]) h

theorem Parameter.hasName_of_mem_flatMap {ps : List Parameter}
    (h : Word.name t ∈ ps.flatMap Parameter.words) : ∃ p ∈ ps, (Node.parameter p).HasName t := by
  obtain ⟨p, hp, h⟩ := List.mem_flatMap.1 h
  exact ⟨p, hp, hasName_of_mem_words h⟩

theorem Modifier.not_mem_words {m : Option Modifier} : Word.name t ∉ Modifier.words m := by
  cases m with
  | none => simp [Modifier.words]
  | some m => exact Word.not_mem_ofSymbol

/-- A name that a callee says is its own. -/
theorem Word.eq_of_mem_ofCallee {n : Text} (h : Word.name t ∈ Word.ofCallee n) : n = t := by
  unfold Word.ofCallee at h
  split at h
  · cases h
  · simpa [eq_comm] using h

mutual

/-- A name among the words of a statement is the name of a construct in it. -/
theorem Statement.hasName_of_mem_words :
    ∀ s : Statement, Word.name t ∈ s.words → (Node.statement s).HasName t
  | .empty _, h | .file _ _ _, h => by simp [Statement.words] at h
  | .block _ ss, h => by
      obtain ⟨s, hs, h⟩ := Statement.hasName_of_mem_wordsList ss h
      exact .of_child (by simpa [Node.children, Node.ofStatement] using hs) h
  | .moduleDefinition _ n ps s, h => by
      simp only [Statement.words, List.mem_append, List.mem_cons, Word.name.injEq,
        List.cons_append] at h
      rcases h with rfl | h | h
      · exact .of_name? rfl
      · obtain ⟨p, hp, h⟩ := Parameter.hasName_of_mem_flatMap h
        exact .of_child (by simp [Node.children, Node.ofStatement, hp]) h
      · exact .of_child (by simp [Node.children, Node.ofStatement]) (s.hasName_of_mem_words h)
  | .functionDefinition _ n ps e, h => by
      simp only [Statement.words, List.mem_append, List.mem_cons, Word.name.injEq,
        List.cons_append] at h
      rcases h with rfl | h | h
      · exact .of_name? rfl
      · obtain ⟨p, hp, h⟩ := Parameter.hasName_of_mem_flatMap h
        exact .of_child (by simp [Node.children, Node.ofStatement, hp]) h
      · exact .of_child (by simp [Node.children, Node.ofStatement]) (e.hasName_of_mem_words h)
  | .assignment _ n e, h => by
      simp only [Statement.words, List.mem_cons, Word.name.injEq] at h
      rcases h with rfl | h
      · exact .of_name? rfl
      · exact .of_child (by simp [Node.children, Node.ofStatement]) (e.hasName_of_mem_words h)
  | .call _ n as s m, h => by
      simp only [Statement.words, List.mem_append, Modifier.not_mem_words, false_or] at h
      rcases h with (h | h) | h
      · obtain rfl := Word.eq_of_mem_ofCallee h
        exact .of_name? rfl
      · obtain ⟨a, ha, h⟩ := Argument.hasName_of_mem_wordsList as h
        exact .of_child (by simp [Node.children, Node.ofStatement, ha]) h
      · exact .of_child (by simp [Node.children, Node.ofStatement]) (s.hasName_of_mem_words h)
  | .loop _ as s m, h => by
      simp only [Statement.words, List.mem_append, Modifier.not_mem_words, false_or] at h
      rcases h with h | h
      · obtain ⟨a, ha, h⟩ := Argument.hasName_of_mem_wordsList as h
        exact .of_child (by simp [Node.children, Node.ofStatement, ha]) h
      · exact .of_child (by simp [Node.children, Node.ofStatement]) (s.hasName_of_mem_words h)
  | .conditional _ e a b, h => by
      simp only [Statement.words, List.mem_append] at h
      rcases h with (h | h) | h
      · exact .of_child (by simp [Node.children, Node.ofStatement]) (e.hasName_of_mem_words h)
      · exact .of_child (by simp [Node.children, Node.ofStatement]) (a.hasName_of_mem_words h)
      · obtain ⟨s, hs, h⟩ := Statement.hasName_of_mem_wordsOption b h
        exact .of_child (by simp [Node.children, Node.ofStatement, show b = some s from hs]) h
  | .modified _ m s, h => by
      simp only [Statement.words, List.mem_append, Word.not_mem_ofSymbol, false_or] at h
      exact .of_child (by simp [Node.children, Node.ofStatement]) (s.hasName_of_mem_words h)

theorem Statement.hasName_of_mem_wordsList :
    ∀ ss : List Statement, Word.name t ∈ Statement.wordsList ss →
      ∃ s ∈ ss, (Node.statement s).HasName t
  | [], h => by simp [Statement.wordsList] at h
  | s :: ss, h => by
      simp only [Statement.wordsList, List.mem_append] at h
      rcases h with h | h
      · exact ⟨s, List.mem_cons_self, s.hasName_of_mem_words h⟩
      · obtain ⟨r, hr, h⟩ := Statement.hasName_of_mem_wordsList ss h
        exact ⟨r, .tail _ hr, h⟩

theorem Statement.hasName_of_mem_wordsOption :
    ∀ o : Option Statement, Word.name t ∈ Statement.wordsOption o →
      ∃ s ∈ o, (Node.statement s).HasName t
  | none, h => by simp [Statement.wordsOption] at h
  | some s, h => ⟨s, rfl, s.hasName_of_mem_words h⟩

end

end Names

namespace Script
open Grammar (reads_of_laid says_of_parseWith ofSource_eq_ok_iff)

/-- No name in the script is the word of a reference to a file. -/
def NamesNoReference (s : Script) : Prop :=
  ∀ n : Node, s.Holds n → ∀ t, n.name? = some t → t ∉ Lexeme.referenceWords

/-- Statement by statement. -/
theorem namesNoReference_iff {s : Script} : s.NamesNoReference ↔ ∀ t ∈ s, ∀ m : Node,
    m.Within (.statement t) → ∀ n, m.name? = some n → n ∉ Lexeme.referenceWords :=
  ⟨fun h t ht m hm => h m ⟨t, ht, hm⟩, fun h m ⟨t, ht, hm⟩ => h t ht m hm⟩

/-- The tokens that spell a script are those of its source. -/
theorem ofSource_of_says {source : Text} {s : Script} {ks : List Token}
    (h : Says (.script s) ks) (hl : Grammar.LaidToEnd (.start source) ks)
    (hs : s.NamesNoReference) : Token.ofSource source = .ok ks ∧ s.words = ks.filterMap Token.word? := by
  obtain ⟨next, laid, -⟩ := id hl
  have words : s.words = ks.filterMap Token.word? := h.words fun k hk => by
    obtain ⟨_, _, at_⟩ := laid.exists_at hk
    exact at_.not_keyword
  refine ⟨ofSource_eq_ok_iff.2 (reads_of_laid hl fun k hk hn => ?_), words⟩
  have mem : Word.name k.text ∈ s.words := by
    rw [words]
    exact List.mem_filterMap.2 ⟨k, hk, Token.word?_of_isName hn⟩
  obtain ⟨r, hr, m, hm, hname⟩ := Statement.hasName_of_mem_wordsList s mem
  exact hs m ⟨r, hr, hm⟩ _ hname

/-- The words of a script are those of the tokens of its source. -/
theorem words_of_parseWith {settings : Grammar.Settings} {source : Text} {s : Script}
    (h : parseWith settings source = .ok s) (hs : s.NamesNoReference) :
    ∃ ks, Token.ofSource source = .ok ks ∧ s.words = ks.filterMap Token.word? := by
  obtain ⟨ks, hl, said, -⟩ := says_of_parseWith h
  exact ⟨ks, ofSource_of_says said hl hs⟩

theorem namesNoReference_copy :
    NamesNoReference [.assignment (some 0) ['a'] (.variable (some 2) ['b'])] := by
  rw [namesNoReference_iff]
  simp [Node.forall_within_iff (n := .statement _), Node.forall_within_iff (n := .expr _),
    Node.children, Node.ofStatement, Node.ofExpr, Node.name?, Lexeme.referenceWords, Text.lit]

theorem words_of_parseWith_assignment :
    ∃ ks, Token.ofSource (Text.lit "a=b;") = .ok ks ∧
      ks.filterMap Token.word? = [.name ['a'], .name ['b']] := by
  have read : parseWith ⟨40, false⟩ (Text.lit "a=b;") =
      .ok [.assignment (some 0) ['a'] (.variable (some 2) ['b'])] := eq_ok_copy (by decide +kernel)
  obtain ⟨ks, hk, hw⟩ := words_of_parseWith read namesNoReference_copy
  exact ⟨ks, hk, hw.symm⟩

end Script

end SolidScript
