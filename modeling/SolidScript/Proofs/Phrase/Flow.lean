import SolidScript.Proofs.Phrase.Edge
import SolidScript.Proofs.Phrase.Expressions
import SolidScript.Proofs.Phrase.Source

/-!
# Phrase — what may follow a token

In a script a number is followed by a symbol, a reference to a file starts a statement, and a name
that starts one is followed by a parenthesis or an equals sign.  So a grammar cannot be in doubt
whether `use` or `include` is a name: of two readings of a source that keep to these rules, one is
the front of the other (`front_of_steady`).

* `Numbered`: a number is followed by a symbol.
* `Steady`: references and names keep to the rules.
* `Says.numbered`, `Says.steady`: the tokens of a script are like that.
-/

namespace SolidScript

/-! ### Tokens that end statements -/

/-- The terminals that a statement can end in. -/
def Terminal.enders : List Terminal := [.useFile, .includeFile, .mark .semicolon, .mark .closeBrace]

/-- No token is one that the terminal stands for and that a statement ends in. -/
def Terminal.isInner (t : Terminal) : Bool := enders.all t.apart

namespace Token

/-- A statement can end in the token. -/
def EndsStatement (k : Token) : Prop := ∃ t ∈ Terminal.enders, t.Accepts k

/-- What follows a name that starts a statement. -/
def OpensStatement (k : Token) : Prop := k.IsMark .openParen ∨ k.IsMark .assign

/-- A statement can end in a reference. -/
theorem IsReference.endsStatement {k : Token} (h : k.IsReference) : k.EndsStatement :=
  h.elim (fun h => ⟨.useFile, by simp [Terminal.enders], h⟩)
    fun h => ⟨.includeFile, by simp [Terminal.enders], h⟩

/-- A statement can end in a semicolon or a closing brace. -/
theorem IsMark.endsStatement {m : Mark} {k : Token} (h : k.IsMark m)
    (hm : m = .semicolon ∨ m = .closeBrace) : k.EndsStatement :=
  ⟨.mark m, by rcases hm with rfl | rfl <;> simp [Terminal.enders], h⟩

/-- No statement ends in a token of another terminal. -/
theorem not_endsStatement {t : Terminal} {k : Token} (h : t.Accepts k) (ht : t.isInner = true) :
    ¬ k.EndsStatement := by
  rintro ⟨u, hu, ha⟩
  exact Terminal.not_accepts_of_apart (List.all_eq_true.1 ht u hu) h ha

theorem kind_ne_number {t : Terminal} {k : Token} (h : t.Accepts k)
    (ht : t.apart .number = true) : k.kind ≠ .number := Terminal.not_accepts_of_apart ht h

/-- The name of a module that is called ends no statement and is no number. -/
theorem IsCallee.exists_accepts {k : Token} (h : k.IsCallee) :
    ∃ t : Terminal, t.Accepts k ∧ t.isInner = true ∧ t.apart .number = true := by
  rcases h with h | h | h | h <;> exact ⟨_, h, by decide, by decide⟩

theorem IsCallee.kind_ne_number {k : Token} (h : k.IsCallee) : k.kind ≠ .number := by
  obtain ⟨t, ht, -, number⟩ := h.exists_accepts
  exact Token.kind_ne_number ht number

theorem IsMark.kind_ne_number {m : Mark} {k : Token} (h : k.IsMark m) : k.kind ≠ .number := by
  rw [h.1]
  decide

end Token

/-! ### Numbers -/

/-- A number is followed by a symbol. -/
def Numbered (ks : List Token) : Prop := ks.IsChain fun a b => a.kind = .number → b.kind = .symbol

namespace Numbered
variable {ks ls : List Token} {k : Token}

/-- Two runs can be joined where the first ends in no number or the second starts with a symbol. -/
theorem append (h : Numbered ks) (h' : Numbered ls)
    (joint : (∀ a ∈ ks.getLast?, a.kind ≠ .number) ∨ ∀ b ∈ ls.head?, b.kind = .symbol) :
    Numbered (ks ++ ls) := by
  refine List.isChain_append.2 ⟨h, h', fun a ha b hb number => ?_⟩
  rcases joint with last | first
  · exact absurd number (last a ha)
  · exact first b hb

/-- A token that is no number, before others. -/
theorem cons (hk : k.kind ≠ .number) (hl : Numbered ls) : Numbered (k :: ls) :=
  append (.singleton k) hl (.inl (by rintro _ ⟨⟩; exact hk))

/-- A symbol after others. -/
theorem mark {m : Mark} (h : Numbered ks) (hk : k.IsMark m) (hl : Numbered ls) :
    Numbered (ks ++ k :: ls) :=
  h.append (.cons hk.kind_ne_number hl) (.inr (by rintro _ ⟨⟩; exact hk.1))

end Numbered

/-! ### Expressions -/

/-- No token ends a statement, and a number is followed by a symbol. -/
structure Flowing (ks : List Token) : Prop where
  inner : ∀ k ∈ ks, ¬ k.EndsStatement
  numbered : Numbered ks

namespace Flowing
variable {ks ls : List Token} {k : Token} {t : Terminal}

theorem nil : Flowing [] := ⟨by simp, .nil⟩

theorem append (h : Flowing ks) (h' : Flowing ls)
    (joint : (∀ a ∈ ks.getLast?, a.kind ≠ .number) ∨ ∀ b ∈ ls.head?, b.kind = .symbol) :
    Flowing (ks ++ ls) :=
  ⟨List.forall_mem_append.2 ⟨h.inner, h'.inner⟩, h.numbered.append h'.numbered joint⟩

/-- A token alone. -/
theorem token (h : t.Accepts k) (ht : t.isInner = true) : Flowing [k] :=
  ⟨by simpa using Token.not_endsStatement h ht, .singleton k⟩

/-- A token that is no number, before others. -/
theorem cons (h : t.Accepts k) (hl : Flowing ls) (ht : (t.isInner && t.apart .number) = true) :
    Flowing (k :: ls) := by
  rw [Bool.and_eq_true] at ht
  refine (token h ht.1).append hl (.inl ?_)
  rintro _ ⟨⟩
  exact Token.kind_ne_number h ht.2

/-- A symbol after others. -/
theorem symbol (h : Flowing ks) (hk : k.kind = .symbol) (hl : Flowing (k :: ls)) :
    Flowing (ks ++ k :: ls) :=
  h.append hl (.inr (by rintro _ ⟨⟩; exact hk))

end Flowing

/-- What the tokens of an access start with, and those of groups of bindings end in. -/
def Phrase.Joint : Phrase → List Token → Prop
  | suffix _, ks  => ∀ b ∈ ks.head?, b.kind = .symbol
  | clauses _, ks => ∀ a ∈ ks.getLast?, a.kind ≠ .number
  | _, _          => True

/-- The tokens of a phrase flow: none of them ends a statement, and a symbol follows each number. -/
theorem Spells.flowing {p : Phrase} {ks : List Token} (h : Spells p ks) :
    Flowing ks ∧ p.Joint ks := by
  induction h with
  | bound hn h he ih ihe => exact ⟨ih.1.append ihe.1 (.inl ih.2), trivial⟩
  | unbound _ ih | unconditional _ ih | operand _ ih | unsigned _ ih | base _ ih =>
    exact ⟨ih.1, trivial⟩
  | @led l hl k o c as e ks ls hk ho h hc he ih ihe =>
    have word : ((Terminal.keyword l.keyword).isInner &&
        (Terminal.keyword l.keyword).apart .number) = true := by cases l <;> decide
    exact ⟨.cons hk (.cons ho (.symbol ih.1 hc.1 (.cons hc ihe.1 (by decide))) (by decide)) word,
      trivial⟩
  | ternary h hq ha hc hb ih iha ihb =>
    exact ⟨.symbol ih.1 hq.1 (.cons hq (.symbol iha.1 hc.1 (.cons hc ihb.1 (by decide)))
      (by decide)), trivial⟩
  | @operation t a b op o ks ls ha ho hop hb iha ihb =>
    refine ⟨.symbol iha.1 ?_ (.cons ho ihb.1 ?_), trivial⟩
    · cases t <;> exact ho.1
    · cases t <;> decide
  | signed hk h he ih => exact ⟨.cons hk ih.1 (by decide), trivial⟩
  | accessed h hs ih ihs => exact ⟨ih.1.append ihs.1 (.inr ihs.2), trivial⟩
  | member hp hn =>
    exact ⟨.cons hp (.token hn (by decide)) (by decide), by rintro _ ⟨⟩; exact hp.1⟩
  | index ho h hc ih =>
    exact ⟨.cons ho (.symbol ih.1 hc.1 (.token hc (by decide))) (by decide),
      by rintro _ ⟨⟩; exact ho.1⟩
  | parenthesized ho h hc ih =>
    exact ⟨.cons ho (.symbol ih.1 hc.1 (.token hc (by decide))) (by decide), trivial⟩
  | @literal k w e hk he =>
    refine ⟨.token hk ?_, trivial⟩
    cases w <;> decide
  | text hk => exact ⟨.token hk (by decide), trivial⟩
  | number hk hv => exact ⟨.token hk (by decide), trivial⟩
  | name hk => exact ⟨.token hk (by decide), trivial⟩
  | call hn ho h hc ih =>
    exact ⟨.cons hn (.cons ho (.symbol ih.1 hc.1 (.token hc (by decide))) (by decide)) (by decide),
      trivial⟩
  | comprehension ho h hf hp ha hc he hq ih iha ihe =>
    refine ⟨.cons ho (ih.1.append (.cons hf (.cons hp (.symbol iha.1 hc.1 (.cons hc
      (.symbol ihe.1 hq.1 (.token hq (by decide))) (by decide))) (by decide)) (by decide))
      (.inl ih.2)) (by decide), trivial⟩
  | range ho ha hm hb hc iha ihb =>
    exact ⟨.cons ho (.symbol iha.1 hm.1 (.cons hm (.symbol ihb.1 hc.1 (.token hc (by decide)))
      (by decide))) (by decide), trivial⟩
  | steppedRange ho ha hm hs hm' hb hc iha ihs ihb =>
    exact ⟨.cons ho (.symbol iha.1 hm.1 (.cons hm (.symbol ihs.1 hm'.1 (.cons hm'
      (.symbol ihb.1 hc.1 (.token hc (by decide))) (by decide))) (by decide))) (by decide), trivial⟩
  | vector ho h hc ih =>
    exact ⟨.cons ho (.symbol ih.1 hc.1 (.token hc (by decide))) (by decide), trivial⟩
  | positional h ih => exact ⟨ih.1, trivial⟩
  | named hn ha h ih => exact ⟨.cons hn (.cons ha ih.1 (by decide)) (by decide), trivial⟩
  | noArguments | noItems => exact ⟨.nil, trivial⟩
  | noClauses => exact ⟨.nil, by simp [Phrase.Joint]⟩
  | lastArgument h ih | lastItem h ih => exact ⟨ih.1, trivial⟩
  | closedArgument h hc ih | closedItem h hc ih =>
    exact ⟨.symbol ih.1 hc.1 (.token hc (by decide)), trivial⟩
  | nextArgument h hc hs ih ihs | nextItem h hc hs ih ihs =>
    exact ⟨.symbol ih.1 hc.1 (.cons hc ihs.1 (by decide)), trivial⟩
  | @clause k o c as gs ks ls hk ho h hc hs ih ihs =>
    refine ⟨.cons hk (.cons ho (.symbol ih.1 hc.1 (.cons hc ihs.1 (by decide))) (by decide))
      (by decide), fun a ha => ?_⟩
    have last : (k :: o :: (ks ++ c :: ls)).getLast? = (c :: ls).getLast? := by
      rw [← List.cons_append, ← List.cons_append, List.getLast?_append_of_ne_nil _ (by simp)]
    rw [last] at ha
    cases ls with
    | nil =>
      obtain rfl : c = a := by simpa using ha
      exact hc.kind_ne_number
    | cons l ls => exact ihs.2 a (by rwa [List.getLast?_cons_cons] at ha)

theorem Spells.expr_flowing {l : Level} {e : Expr} {ks : List Token} (h : Spells (.expr l e) ks) :
    Flowing ks := h.flowing.1

theorem Spells.arguments_flowing {as : List Argument} {ks : List Token}
    (h : Spells (.arguments as) ks) : Flowing ks := h.flowing.1

/-- The tokens of parameters flow. -/
theorem Flowing.ofCommas {ps : List Parameter} {ks : List Token}
    (h : Commas SpellsParameter ps ks) : Flowing ks := by
  have one {p : Parameter} {ks : List Token} (h : SpellsParameter p ks) : Flowing ks := by
    cases h with
    | plain hn => exact .token hn (by decide)
    | withDefault hn ha h => exact .cons hn (.cons ha h.expr_flowing (by decide)) (by decide)
  induction h with
  | none => exact .nil
  | last h => exact one h
  | closed h hc => exact .symbol (one h) hc.1 (.token hc (by decide))
  | next h hc _ ih => exact .symbol (one h) hc.1 (.cons hc ih (by decide))

/-! ### Statements -/

/-- What follows the tokens of statements keeps to the rules just as well behind them. -/
theorem Says.numbered_append {p : Passage} {ks : List Token} (h : Says p ks) :
    ∀ {ls : List Token}, Numbered ls → Numbered (ks ++ ls) := by
  induction h with
  | empty hk => exact fun hs => .cons hk.kind_ne_number hs
  | block ho _ hc ih =>
    intro ls hs
    rw [List.cons_append, List.append_assoc]
    exact .cons ho.kind_ne_number (ih (.cons hc.kind_ne_number hs))
  | moduleDefinition hm hn ho hp hc _ ih =>
    intro ls hs
    simp only [List.cons_append, List.append_assoc]
    exact .cons (Token.kind_ne_number hm (by decide)) (.cons (Token.kind_ne_number hn (by decide))
      (.cons ho.kind_ne_number (.mark (Flowing.ofCommas hp).numbered hc (ih hs))))
  | functionDefinition hf hn ho hp hc ha he hz =>
    intro ls hs
    simp only [List.cons_append, List.append_assoc]
    exact .cons (Token.kind_ne_number hf (by decide)) (.cons (Token.kind_ne_number hn (by decide))
      (.cons ho.kind_ne_number (.mark (Flowing.ofCommas hp).numbered hc (.cons ha.kind_ne_number
        (.mark he.expr_flowing.numbered hz hs)))))
  | assignment hn ha he hz =>
    intro ls hs
    simp only [List.cons_append, List.append_assoc]
    exact .cons (Token.kind_ne_number hn (by decide)) (.cons ha.kind_ne_number
      (.mark he.expr_flowing.numbered hz hs))
  | conditional hi ho he hc _ ih =>
    intro ls hs
    simp only [List.cons_append, List.append_assoc]
    exact .cons (Token.kind_ne_number hi (by decide)) (.cons ho.kind_ne_number
      (.mark he.expr_flowing.numbered hc (ih hs)))
  | alternative hi ho he hc _ hl _ ih ihb =>
    intro ls hs
    simp only [List.cons_append, List.append_assoc]
    exact .cons (Token.kind_ne_number hi (by decide)) (.cons ho.kind_ne_number
      (.mark he.expr_flowing.numbered hc (ih (.cons (Token.kind_ne_number hl (by decide)) (ihb hs)))))
  | modified hk _ _ ih => exact fun hs => .cons (Token.kind_ne_number hk (by decide)) (ih hs)
  | loop hf ho ha hc _ ih =>
    intro ls hs
    simp only [List.cons_append, List.append_assoc]
    exact .cons (Token.kind_ne_number hf (by decide)) (.cons ho.kind_ne_number
      (.mark ha.arguments_flowing.numbered hc (ih hs)))
  | call hn ho ha hc _ ih =>
    intro ls hs
    simp only [List.cons_append, List.append_assoc]
    exact .cons hn.kind_ne_number (.cons ho.kind_ne_number
      (.mark ha.arguments_flowing.numbered hc (ih hs)))
  | noStatements | emptyScript => exact id
  | nextStatement _ _ ih ihs | ordinary _ _ ih ihs =>
    intro ls hs
    rw [List.append_assoc]
    exact ih (ihs hs)
  | useFile hk _ ih | includeFile hk _ ih =>
    exact fun hs => .cons (Token.kind_ne_number hk (by decide)) (ih hs)

/-- In a script a number is followed by a symbol. -/
theorem Says.numbered {p : Passage} {ks : List Token} (h : Says p ks) : Numbered ks := by
  simpa using h.numbered_append .nil

/-! ### Names and references -/

/-- A reference starts a statement, and a name that starts one is followed by a token that may follow
one.  The first token starts a statement if `first` holds. -/
def Steady : Prop → List Token → Prop
  | _, []          => True
  | first, k :: ks =>
    (k.IsReference → first) ∧ (first → k.IsName → ∃ l ∈ ks.head?, l.OpensStatement) ∧
      Steady k.EndsStatement ks

namespace Steady
variable {first : Prop} {ks ls : List Token} {k : Token} {t : Terminal}

/-- A token that does not end a statement. -/
theorem cons (h : t.Accepts k) (ht : t.isInner = true)
    (hn : first → k.IsName → ∃ l ∈ ks.head?, l.OpensStatement) (hs : Steady False ks) :
    Steady first (k :: ks) := by
  have inner := Token.not_endsStatement h ht
  exact ⟨fun hr => absurd hr.endsStatement inner, hn, by rwa [eq_false inner]⟩

/-- A token that ends a statement and is no reference. -/
theorem ender {m : Mark} (h : k.IsMark m) (hm : m = .semicolon ∨ m = .closeBrace)
    (hs : Steady True ks) : Steady first (k :: ks) := by
  have kind : k.kind = .symbol := h.1
  refine ⟨?_, fun _ name => ?_, ?_⟩
  · rintro (hr | hr) <;> simp [kind] at hr
  · have : k.kind = .identifier := name
    simp [kind] at this
  · rwa [eq_true (h.endsStatement hm)]

/-- A token that is no name, at the start of a statement. -/
theorem start (h : t.Accepts k) (ht : t.isInner = true) (hn : t.apart .identifier = true)
    (hs : Steady False ks) : Steady first (k :: ks) :=
  .cons h ht (fun _ name => absurd name (Terminal.not_accepts_of_apart hn h)) hs

/-- A reference at the start of a statement. -/
theorem reference (h : k.IsReference) (hs : Steady True ks) : Steady True (k :: ks) := by
  refine ⟨fun _ => trivial, fun _ name => ?_, by rwa [eq_true h.endsStatement]⟩
  have kind : k.kind = .identifier := name
  rcases h with h | h <;> simp [kind] at h

/-- Tokens within a statement. -/
theorem append (h : ∀ k ∈ ks, ¬ k.EndsStatement) (hs : Steady False ls) :
    Steady False (ks ++ ls) := by
  induction ks with
  | nil => exact hs
  | cons k ks ih =>
    rw [List.forall_mem_cons] at h
    exact ⟨fun hr => h.1 hr.endsStatement, False.elim, by rw [eq_false h.1]; exact ih h.2⟩

end Steady

/-- Whether the tokens of statements are steady depends only on what follows. -/
theorem Says.steady_append {p : Passage} {ks : List Token} (h : Says p ks) :
    match p with
    | .statement _  => ∀ first ls, Steady True ls → Steady first (ks ++ ls)
    | .statements _ => ∀ first ls, (∀ first, Steady first ls) → Steady first (ks ++ ls)
    | .script _     => Steady True ks := by
  induction h with
  | empty hk => exact fun _ _ hs => .ender hk (.inl rfl) hs
  | block ho _ hc ih =>
    intro first ls hs
    rw [List.cons_append, List.append_assoc]
    exact .start ho (by decide) (by decide) (ih _ _ fun _ => .ender hc (.inr rfl) hs)
  | moduleDefinition hm hn ho hp hc _ ih =>
    intro first ls hs
    simp only [List.cons_append, List.append_assoc]
    exact .start hm (by decide) (by decide) (.cons hn (by decide) False.elim
      (.start ho (by decide) (by decide) (.append (Flowing.ofCommas hp).inner
        (.start hc (by decide) (by decide) (ih _ _ hs)))))
  | functionDefinition hf hn ho hp hc ha he hz =>
    intro first ls hs
    simp only [List.cons_append, List.append_assoc]
    exact .start hf (by decide) (by decide) (.cons hn (by decide) False.elim
      (.start ho (by decide) (by decide) (.append (Flowing.ofCommas hp).inner
        (.start hc (by decide) (by decide) (.start ha (by decide) (by decide)
          (.append he.expr_flowing.inner (.ender hz (.inl rfl) hs)))))))
  | @assignment n a z e ks hn ha he hz =>
    intro first ls hs
    simp only [List.cons_append, List.append_assoc]
    exact .cons hn (by decide) (fun _ _ => ⟨a, rfl, .inr ha⟩) (.start ha (by decide) (by decide)
      (.append he.expr_flowing.inner (.ender hz (.inl rfl) hs)))
  | conditional hi ho he hc _ ih =>
    intro first ls hs
    simp only [List.cons_append, List.append_assoc]
    exact .start hi (by decide) (by decide) (.start ho (by decide) (by decide)
      (.append he.expr_flowing.inner (.start hc (by decide) (by decide) (ih _ _ hs))))
  | alternative hi ho he hc _ hl _ ih ihb =>
    intro first ls hs
    simp only [List.cons_append, List.append_assoc]
    have other := @Steady.start True _ _ _ hl (by decide) (by decide) (ihb _ _ hs)
    exact .start hi (by decide) (by decide) (.start ho (by decide) (by decide)
      (.append he.expr_flowing.inner (.start hc (by decide) (by decide) (ih _ _ other))))
  | modified hk _ _ ih => exact fun _ _ hs => .start hk (by decide) (by decide) (ih _ _ hs)
  | loop hf ho ha hc _ ih =>
    intro first ls hs
    simp only [List.cons_append, List.append_assoc]
    exact .start hf (by decide) (by decide) (.start ho (by decide) (by decide)
      (.append ha.arguments_flowing.inner (.start hc (by decide) (by decide) (ih _ _ hs))))
  | @call n o c _ _ _ _ hn ho ha hc _ ih =>
    intro first ls hs
    simp only [List.cons_append, List.append_assoc]
    obtain ⟨t, ht, inner, -⟩ := hn.exists_accepts
    exact .cons ht inner (fun _ _ => ⟨o, rfl, .inl ho⟩) (.start ho (by decide) (by decide)
      (.append ha.arguments_flowing.inner (.start hc (by decide) (by decide) (ih _ _ hs))))
  | noStatements => exact fun _ _ hs => hs _
  | emptyScript => trivial
  | nextStatement _ _ ih ihs =>
    intro first ls hs
    rw [List.append_assoc]
    exact ih _ _ (ihs _ _ hs)
  | ordinary _ _ ih ihs => exact ih _ _ ihs
  | useFile hk _ ih => exact .reference (.inl hk) ih
  | includeFile hk _ ih => exact .reference (.inr hk) ih

/-- The tokens of a script are steady. -/
theorem Says.steady {ss : Script} {ks : List Token} (h : Says (.script ss) ks) : Steady True ks :=
  h.steady_append

/-- The front of steady tokens is steady, if what is put behind it may follow it. -/
theorem Steady.front {first : Prop} {ks ls : List Token} {a b : Token} (h : Steady first (ks ++ a :: ls))
    (ha : ¬ a.OpensStatement) (hr : ¬ b.IsReference) (hb : ¬ b.IsName) : Steady first (ks ++ [b]) := by
  induction ks generalizing first with
  | nil => exact ⟨fun h => absurd h hr, fun _ h => absurd h hb, trivial⟩
  | cons k ks ih =>
    obtain ⟨reference, name, rest⟩ := h
    refine ⟨reference, fun hf hn => ?_, ih rest⟩
    obtain ⟨l, hl, opens⟩ := name hf hn
    cases ks with
    | nil =>
      obtain rfl : a = l := by simpa using hl
      exact absurd opens ha
    | cons c ks => exact ⟨l, hl, opens⟩

namespace Grammar

/-- A name that is the word of a reference is followed by no token that may follow it at the start of
a statement. -/
theorem At.eq_of_opens {here next m : Cursor} {k r : Token} (h : At here k next) (hk : ¬ k.IsReference)
    (h' : At here r m) (hr : r.IsReference) {ks : List Token} {last : Cursor}
    (laid : Laid next ks last) (opens : k.IsName → ∃ l ∈ ks.head?, l.OpensStatement) : False := by
  have token : Token.next here = .token r m := by
    refine h'.next fun kind => ?_
    rcases hr with hr | hr <;> simp [kind] at hr
  rcases h.next_or_reference with same | ⟨name, -, -, x, -, -, -, rest, -⟩
  · rw [token] at same
    cases same
    exact hk hr
  · obtain ⟨l, hl, mark⟩ := opens name
    obtain ⟨ls, rfl⟩ := List.head?_eq_some_iff.1 hl
    obtain ⟨there, hat, -⟩ := laid_cons_iff.1 laid
    have first := hat.rest.1
    rw [rest] at first
    rcases mark with ho | ho <;> (rw [ho.2] at first; cases first)

/-- Of two readings of a source that are steady, one that goes to the end starts with the other. -/
theorem front_of_steady {first : Prop} {ks ls : List Token} {here there : Cursor}
    (hk : Steady first ks) (hl : Steady first ls) (h : Laid here ks there) (h' : LaidToEnd here ls) :
    ∃ ms, ls = ks ++ ms ∧ LaidToEnd there ms := by
  induction ks generalizing first ls here with
  | nil =>
    obtain rfl := laid_nil_iff.1 h
    exact ⟨ls, rfl, h'⟩
  | cons k ks ih =>
    obtain ⟨mid, hat, h⟩ := laid_cons_iff.1 h
    obtain ⟨last, laid, done⟩ := h'
    cases ls with
    | nil =>
      obtain rfl := laid_nil_iff.1 laid
      obtain ⟨rest, ne, -⟩ := hat.rest
      rw [done] at rest
      exact absurd (List.append_eq_nil_iff.1 rest.symm).1 ne
    | cons l ls =>
      obtain ⟨mid', hat', laid⟩ := laid_cons_iff.1 laid
      have same : k.IsReference ↔ l.IsReference := by
        by_cases hr : k.IsReference <;> by_cases hr' : l.IsReference <;> simp only [hr, hr']
        · exact (hat'.eq_of_opens hr' hat hr laid (hl.2.1 (hk.1 hr))).elim
        · exact (hat.eq_of_opens hr hat' hr' h (hk.2.1 (hl.1 hr'))).elim
      obtain ⟨rfl, rfl⟩ := hat.eq hat' same
      obtain ⟨ms, rfl, hm⟩ := ih hk.2.2 hl.2.2 h ⟨last, laid, done⟩
      exact ⟨ms, rfl, hm⟩

end Grammar

end SolidScript
