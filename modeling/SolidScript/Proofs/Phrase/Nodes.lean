import SolidScript.Proofs.Phrase.Expressions
import SolidScript.Proofs.Words

/-!
# Phrase — the tokens of a node

The constructs directly in a construct are spelled by runs of its tokens that follow each other, and
so every construct in a script is spelled by a run of the tokens of the script.  What a construct is
built from is such a run, without parentheses around it or plus signs before it: it starts where the
first token of the run starts, and that token shows what it is.

* `Node.SpeltBy`: the tokens spell the node.
* `Node.MadeOf`: the tokens that a node is built from.
* `Node.SpeltBy.madeWithin`: what is spelled by tokens is built from a run of them.
* `Says.node_cases`: a node of a script is spelled by a run of its tokens, or refers to a file.
-/

namespace SolidScript

namespace Node

/-- The tokens spell the construct. -/
def SpeltBy : Node → List Token → Prop
  | expr e,      ks => ∃ l, Spells (.expr l e) ks
  | argument a,  ks => Spells (.argument a) ks
  | parameter p, ks => SpellsParameter p ks
  | statement s, ks => Says (.statement s) ks

/-- The tokens spell the constructs one after the other, perhaps with others between them. -/
inductive Along : List Node → List Token → Prop where
  | nil (ks : List Token) : Along [] ks
  | cons (us : List Token) {n : Node} {ns : List Node} {ls ms : List Token} (h : n.SpeltBy ls)
      (hs : Along ns ms) : Along (n :: ns) (us ++ (ls ++ ms))

namespace Along
variable {ns ms : List Node} {ks ls : List Token}

/-- What lies along tokens lies along them with others before. -/
theorem before (us : List Token) (h : Along ns ks) : Along ns (us ++ ks) := by
  cases h with
  | nil => exact .nil _
  | cons vs h hs =>
    rw [← List.append_assoc us]
    exact .cons (us ++ vs) h hs

/-- Constructs lie along tokens in two parts if their parts do. -/
theorem append (h : Along ns ks) (k : Along ms ls) : Along (ns ++ ms) (ks ++ ls) := by
  induction h with
  | nil ks => exact k.before ks
  | cons us h _ ih =>
    rw [List.append_assoc, List.append_assoc]
    exact .cons us h ih

/-- What lies along tokens lies along them with others behind. -/
theorem after (us : List Token) (h : Along ns ks) : Along ns (ks ++ us) := by
  simpa using h.append (.nil us)

/-- A construct lies along the tokens that spell it. -/
theorem single {n : Node} (h : n.SpeltBy ks) : Along [n] ks := by
  simpa using Along.cons [] h (.nil [])

/-- A token before the constructs. -/
theorem token (k : Token) (h : Along ns ks) : Along ns (k :: ks) := h.before [k]

/-- Each of the constructs is spelled by a run of the tokens. -/
theorem of_mem (h : Along ns ks) {n : Node} (hn : n ∈ ns) : ∃ ls, ls <:+: ks ∧ n.SpeltBy ls := by
  induction h with
  | nil => cases hn
  | @cons us m ns ls ms h _ ih =>
    rcases List.mem_cons.1 hn with rfl | hn
    · exact ⟨ls, ⟨us, ms, List.append_assoc ..⟩, h⟩
    · obtain ⟨vs, hv, said⟩ := ih hn
      exact ⟨vs, hv.trans ⟨us ++ ls, [], by simp⟩, said⟩

end Along

/-! ### What a construct is built from -/

/-- The first token of what the construct is built from.  It says nothing of constructs that start
with others. -/
def Opens : Node → Token → Prop
  | expr (.undef _), k         => k.IsWord .undefWord
  | expr (.boolean _ b), k     => k.IsWord (if b then .trueWord else .falseWord)
  | expr (.number _ v), k      => Terminal.number.Accepts k ∧ Number.Numeral.value? k.text = some v
  | expr (.text _ t), k        => Terminal.string.Accepts k ∧ OfTree.inner k.text = t
  | expr (.variable _ n), k | expr (.call _ n _), k => k.IsName ∧ k.text = n
  | expr (.vector _ _), k | expr (.range _ _ _ _), k => k.IsMark .openBracket
  | expr (.comprehension _ _ _ _), k => k.IsMark .openBracket
  | expr (.unary _ o _), k     => Terminal.unary.Accepts k ∧ k.text = o.text
  | expr (.led _ l _ _), k     => k.IsWord l.keyword
  | argument (.mk _ (some n) _), k => k.IsName ∧ k.text = n
  | parameter p, k             => k.IsName ∧ k.text = p.name
  | statement (.empty _), k    => k.IsMark .semicolon
  | statement (.block _ _), k  => k.IsMark .openBrace
  | statement (.moduleDefinition _ _ _ _), k   => k.IsWord .moduleWord
  | statement (.functionDefinition _ _ _ _), k => k.IsWord .functionWord
  | statement (.assignment _ n _), k => k.IsName ∧ k.text = n
  | statement (.call _ n _ _ none), k => k.IsCallee ∧ k.text = n
  | statement (.loop _ _ _ none), k  => k.IsWord .forWord
  | statement (.call _ _ _ _ (some m)), k | statement (.loop _ _ _ (some m)), k
  | statement (.modified _ m _), k   => Terminal.modifier.Accepts k ∧ k.text = m.text
  | statement (.conditional _ _ _ _), k => k.IsWord .ifWord
  | statement (.file _ _ _), _ => False
  | _, _ => True

/-- The construct is a call of a module. -/
def IsModuleCall : Node → Prop
  | statement (.call _ _ _ _ _) => True
  | _ => False

/-- The construct is built from the tokens, of which `k` is the first. -/
structure MadeOf (n : Node) (k : Token) (ks : List Token) : Prop where
  place : n.place = some k.start
  opens : n.Opens k
  children : Along n.children (k :: ks)
  named : ∀ t, n.name? = some t →
    ∃ l ∈ k :: ks, l.text = t ∧ (l.IsName ∨ n.IsModuleCall ∧ l.IsCallee)

/-- The construct is built from a run of the tokens. -/
def MadeWithin (n : Node) (ks : List Token) : Prop :=
  ∃ k ls, (k :: ls) <:+: ks ∧ n.MadeOf k ls

/-- A construct is made within its tokens. -/
theorem MadeOf.within {n : Node} {k : Token} {ks : List Token} (h : n.MadeOf k ks) :
    n.MadeWithin (k :: ks) := ⟨k, ks, List.infix_rfl, h⟩

/-- What is made within a part of tokens is made within all of them. -/
theorem MadeWithin.mono {n : Node} {ks ls : List Token} (h : n.MadeWithin ks) (hs : ks <:+: ls) :
    n.MadeWithin ls := by
  obtain ⟨k, ms, hm, made⟩ := h
  exact ⟨k, ms, hm.trans hs, made⟩

end Node

/-! ### Expressions -/

section Expressions
open Node (Along MadeOf MadeWithin)
variable {ks ls ms : List Token}

/-- What the tokens of a phrase tell of the constructs in it. -/
def Phrase.Made : Phrase → List Token → Prop
  | expr _ e,           ks => (Node.expr e).MadeWithin ks
  | suffix (.member n), ks => ∃ k ∈ ks, k.IsName ∧ k.text = n
  | suffix (.index e),  ks => Along [.expr e] ks
  | argument a,         ks => ∃ k ls, ks = k :: ls ∧ (Node.argument a).MadeOf k ls
  | arguments as,       ks => Along (as.map .argument) ks
  | items es,           ks => Along (es.map .expr) ks
  | clauses gs,         ks => Along (gs.flatten.map .argument) ks

theorem Node.Along.expr {l : Level} {e : Expr} (h : Spells (.expr l e) ks) : Along [.expr e] ks :=
  .single (n := .expr e) ⟨l, h⟩

/-- A literal is made of its keyword. -/
theorem Node.MadeOf.ofKeyword {k : Token} {w : Keyword} {e : Expr} (hk : k.IsWord w)
    (he : Expr.ofKeyword? k.start w = some e) : (Node.expr e).MadeOf k [] := by
  cases w <;> cases he <;> exact ⟨rfl, hk, .nil _, nofun⟩

/-- What starts where its first part starts is built from all the tokens. -/
theorem Node.MadeOf.ofPlace {n : Node} (hne : ks ≠ []) (hp : n.place = SolidScript.place ks)
    (ho : ∀ k, n.Opens k) (hc : Along n.children ks) (hn : ∀ t, n.name? = some t →
      ∃ l ∈ ks, l.text = t ∧ l.IsName) : n.MadeWithin ks := by
  obtain ⟨k, ls, rfl⟩ := List.exists_cons_of_ne_nil hne
  refine MadeOf.within ⟨hp, ho k, hc, fun t ht => ?_⟩
  obtain ⟨l, hl, he, name⟩ := hn t ht
  exact ⟨l, hl, he, .inl name⟩

/-- A phrase is made of the tokens that spell it. -/
theorem Phrase.made_of_spells {p : Phrase} (h : Spells p ks) : p.Made ks := by
  induction h with
  | unbound _ ih | unconditional _ ih | operand _ ih | unsigned _ ih | base _ ih => exact ih
  | @bound gs e ks ls hn h he ih _ =>
    obtain ⟨k, ms, rfl, hk⟩ : ∃ k ms, ks = k :: ms ∧ k.IsWord .letWord := by
      cases h with
      | noClauses => exact absurd rfl hn
      | clause hk => exact ⟨_, _, rfl, hk⟩
    exact MadeOf.within ⟨rfl, hk, ih.append (.expr he), nofun⟩
  | led hl hk ho h hc he ih _ =>
    exact MadeOf.within ⟨rfl, hk, .token _ (.token _ (.append ih (.token _ (.expr he)))), nofun⟩
  | ternary h hq ha hc hb =>
    exact MadeOf.ofPlace (List.append_ne_nil_of_left_ne_nil h.expr_ne_nil _)
      (by obtain ⟨k, ls, rfl⟩ := List.exists_cons_of_ne_nil h.expr_ne_nil; rfl) (fun _ => trivial)
      (.append (.expr h) (.token _ (.append (.expr ha) (.token _ (.expr hb))))) nofun
  | operation ha ho hop hb =>
    exact MadeOf.ofPlace (List.append_ne_nil_of_left_ne_nil ha.expr_ne_nil _)
      (by obtain ⟨k, ls, rfl⟩ := List.exists_cons_of_ne_nil ha.expr_ne_nil; rfl) (fun _ => trivial)
      (.append (.expr ha) (.token _ (.expr hb))) nofun
  | @signed e e' k ks hk h he ih =>
    unfold OfTree.signed? at he
    split at he <;> cases he
    · exact MadeOf.within ⟨rfl, ⟨hk, ‹_›⟩, .token _ (.expr h), nofun⟩
    · exact MadeOf.within ⟨rfl, ⟨hk, ‹_›⟩, .token _ (.expr h), nofun⟩
    · exact MadeWithin.mono ih ⟨[k], [], by simp⟩
  | @accessed e s ks ls h hs ih ihs =>
    obtain ⟨k, ms, rfl⟩ := List.exists_cons_of_ne_nil h.expr_ne_nil
    cases s with
    | member n =>
      obtain ⟨l, hl, name⟩ := ihs
      exact MadeOf.within ⟨rfl, trivial, .after _ (.expr h), fun t ht => by
        cases ht
        exact ⟨l, List.mem_append_right (k :: ms) hl, name.2, .inl name.1⟩⟩
    | index i => exact MadeOf.within ⟨rfl, trivial, .append (.expr h) ihs, nofun⟩
  | member hp hn => exact ⟨_, by simp, hn, rfl⟩
  | index ho h hc => exact .token _ (.after _ (.expr h))
  | @parenthesized o c e ks ho h hc ih => exact MadeWithin.mono ih ⟨[o], [c], by simp⟩
  | literal hk he => exact (MadeOf.ofKeyword hk he).within
  | text hk => exact MadeOf.within ⟨rfl, ⟨hk, rfl⟩, .nil _, nofun⟩
  | number hk hv => exact MadeOf.within ⟨rfl, ⟨hk, hv⟩, .nil _, nofun⟩
  | name hk =>
    exact MadeOf.within ⟨rfl, ⟨hk, rfl⟩, .nil _, fun t ht => ⟨_, by simp, Option.some.inj ht, .inl hk⟩⟩
  | call hn ho h hc ih =>
    exact MadeOf.within ⟨rfl, ⟨hn, rfl⟩, .token _ (.token _ (.after _ ih)),
      fun t ht => ⟨_, by simp, Option.some.inj ht, .inl hn⟩⟩
  | @comprehension o f p c q gs as e ks ls ms ho h hf hp ha hc he hq ih iha =>
    refine MadeOf.within ⟨rfl, ho, .token _ ?_, nofun⟩
    have all := ih.append (.token f (.token p (iha.append (.token c (.after [q] (.expr he))))))
    rwa [← List.append_assoc] at all
  | range ho ha hm hb hc =>
    exact MadeOf.within ⟨rfl, ho, .token _ (.append (.expr ha) (.token _ (.after _ (.expr hb)))), nofun⟩
  | steppedRange ho ha hm hs hm' hb hc =>
    exact MadeOf.within ⟨rfl, ho, .token _ (.append (.expr ha) (.token _ (.append (.expr hs)
      (.token _ (.after _ (.expr hb)))))), nofun⟩
  | vector ho h hc ih => exact MadeOf.within ⟨rfl, ho, .token _ (.after _ ih), nofun⟩
  | @positional e ks h ih =>
    obtain ⟨k, ls, rfl⟩ := List.exists_cons_of_ne_nil h.expr_ne_nil
    exact ⟨k, ls, rfl, rfl, trivial, .expr h, nofun⟩
  | named hn ha h =>
    exact ⟨_, _, rfl, rfl, ⟨hn, rfl⟩, .token _ (.token _ (.expr h)),
      fun t ht => ⟨_, by simp, Option.some.inj ht, .inl hn⟩⟩
  | noArguments | noItems | noClauses => exact .nil _
  | lastArgument h => exact .single (n := .argument _) h
  | closedArgument h hc => exact .after _ (.single (n := .argument _) h)
  | nextArgument h hc hs _ ih => exact .append (.single (n := .argument _) h) (.token _ ih)
  | lastItem h => exact .expr h
  | closedItem h hc => exact .after _ (.expr h)
  | nextItem h hc hs _ ih => exact .append (.expr h) (.token _ ih)
  | @clause k o c as gs ks ls hk ho h hc hs ih ihs =>
    have all := Along.append ih (ihs.token c)
    rw [← List.map_append] at all
    exact .token _ (.token _ all)

/-- The constructs of a list with commas. -/
theorem Node.Along.ofCommas {ps : List Parameter} (h : Commas SpellsParameter ps ks) :
    Along (ps.map .parameter) ks := by
  induction h with
  | none => exact .nil _
  | last h => exact .single (n := .parameter _) h
  | closed h hc => exact .after _ (.single (n := .parameter _) h)
  | next h hc _ ih => exact .append (.single (n := .parameter _) h) (.token _ ih)

/-- A parameter is made of the tokens that spell it. -/
theorem SpellsParameter.made {p : Parameter} (h : SpellsParameter p ks) :
    (Node.parameter p).MadeWithin ks := by
  cases h with
  | plain hn =>
    exact MadeOf.within ⟨rfl, ⟨hn, rfl⟩, .nil _,
      fun t ht => ⟨_, by simp, Option.some.inj ht, .inl hn⟩⟩
  | withDefault hn ha h =>
    exact MadeOf.within ⟨rfl, ⟨hn, rfl⟩, .token _ (.token _ (.expr h)),
      fun t ht => ⟨_, by simp, Option.some.inj ht, .inl hn⟩⟩

end Expressions

/-! ### Statements -/

namespace Statement

/-- The statement has room for a modifier. -/
def HasRoom : Statement → Prop
  | .call _ _ _ _ none | .loop _ _ _ none => True
  | _ => False

/-- A statement that has no room for a modifier is put under it. -/
theorem modify_of_not_hasRoom {s : Statement} (h : ¬ s.HasRoom) (p : Place) (m : Modifier) :
    OfTree.modify p m s = .modified p m s := by
  unfold OfTree.modify
  split
  · exact absurd trivial h
  · exact absurd trivial h
  · rfl

end Statement

section Statements
open Node (Along MadeOf MadeWithin)
variable {ks ls : List Token}

theorem Node.Along.statement {s : Statement} (h : Says (.statement s) ks) :
    Along [.statement s] ks := .single (n := .statement s) h

/-- What the tokens of a passage tell of the constructs in it. -/
def Passage.Made : Passage → List Token → Prop
  | statement s, ks   => ∃ k ls, ks = k :: ls ∧ (Node.statement s).MadeOf k ls
  | statements ss, ks => Along (ss.map .statement) ks
  | script _, _       => True

/-- A statement with a modifier is made of the modifier and the tokens of the statement. -/
theorem Node.MadeOf.modify {k l : Token} {m : Modifier} {s : Statement}
    (hk : Terminal.modifier.Accepts k) (hm : Modifier.ofText? k.text = some m)
    (h : Says (.statement s) (l :: ls)) (made : (Node.statement s).MadeOf l ls) :
    (Node.statement (OfTree.modify k.start m s)).MadeOf k (l :: ls) := by
  have opens := And.intro hk (Modifier.text_of_ofText? hm).symm
  by_cases hs : s.HasRoom
  · obtain ⟨-, -, children, named⟩ := made
    match s, hs with
    | .call p n as c none, _ =>
      refine ⟨rfl, opens, children.token k, fun t ht => ?_⟩
      obtain ⟨i, hi, named⟩ := named t ht
      exact ⟨i, .tail _ hi, named⟩
    | .loop p as c none, _ => exact ⟨rfl, opens, children.token k, nofun⟩
  · rw [Statement.modify_of_not_hasRoom hs]
    exact ⟨rfl, opens, .token k (.statement h), nofun⟩

/-- A passage is made of the tokens that say it. -/
theorem Passage.made_of_says {p : Passage} (h : Says p ks) : p.Made ks := by
  induction h with
  | empty hk => exact ⟨_, _, rfl, rfl, hk, .nil _, nofun⟩
  | block ho h hc ih => exact ⟨_, _, rfl, rfl, ho, .token _ (.after _ ih), nofun⟩
  | moduleDefinition hm hn ho hp hc h =>
    exact ⟨_, _, rfl, rfl, hm, .token _ (.token _ (.token _
      (.append (.ofCommas hp) (.token _ (.statement h))))),
      fun t ht => ⟨_, by simp, Option.some.inj ht, .inl hn⟩⟩
  | functionDefinition hf hn ho hp hc ha h hz =>
    exact ⟨_, _, rfl, rfl, hf, .token _ (.token _ (.token _
      (.append (.ofCommas hp) (.token _ (.token _ (.after _ (.expr h))))))),
      fun t ht => ⟨_, by simp, Option.some.inj ht, .inl hn⟩⟩
  | assignment hn ha h hz =>
    exact ⟨_, _, rfl, rfl, ⟨hn, rfl⟩, .token _ (.token _ (.after _ (.expr h))),
      fun t ht => ⟨_, by simp, Option.some.inj ht, .inl hn⟩⟩
  | conditional hi ho h hc ha =>
    exact ⟨_, _, rfl, rfl, hi, .token _ (.token _ (.append (.expr h) (.token _ (.statement ha)))),
      nofun⟩
  | alternative hi ho h hc ha hl hb =>
    exact ⟨_, _, rfl, rfl, hi, .token _ (.token _ (.append (.expr h) (.token _
      (.append (.statement ha) (.token _ (.statement hb)))))), nofun⟩
  | modified hk hm h ih =>
    obtain ⟨l, ls, rfl, made⟩ := ih
    exact ⟨_, _, rfl, made.modify hk hm h⟩
  | loop hf ho ha hc h =>
    exact ⟨_, _, rfl, rfl, hf, .token _ (.token _ (.append (Phrase.made_of_spells ha)
      (.token _ (.statement h)))), nofun⟩
  | call hn ho ha hc h =>
    exact ⟨_, _, rfl, rfl, ⟨hn, rfl⟩, .token _ (.token _ (.append (Phrase.made_of_spells ha)
      (.token _ (.statement h)))),
      fun t ht => ⟨_, by simp, Option.some.inj ht, .inr ⟨trivial, hn⟩⟩⟩
  | noStatements => exact .nil _
  | nextStatement h hs _ ih => exact .append (.statement h) ih
  | _ => trivial

end Statements

/-! ### Nodes -/

namespace Node
variable {ks : List Token}

/-- A construct that is spelled by tokens is built from a run of them. -/
theorem SpeltBy.madeWithin : ∀ {n : Node}, n.SpeltBy ks → n.MadeWithin ks
  | expr _,      ⟨_, h⟩ => Phrase.made_of_spells h
  | parameter _, h => SpellsParameter.made h
  | argument _,  h => by
    obtain ⟨k, ls, rfl, made⟩ := Phrase.made_of_spells h
    exact made.within
  | statement _, h => by
    obtain ⟨k, ls, rfl, made⟩ := Passage.made_of_says h
    exact made.within

/-- A construct in one that is spelled by tokens is spelled by a run of them. -/
theorem SpeltBy.within {m n : Node} (w : m.Within n) (h : n.SpeltBy ks) :
    ∃ ls, ls <:+: ks ∧ m.SpeltBy ls := by
  induction w generalizing ks with
  | self => exact ⟨ks, List.infix_rfl, h⟩
  | child hc _ ih =>
    obtain ⟨k, ls, run, made⟩ := h.madeWithin
    obtain ⟨ms, run', said⟩ := made.children.of_mem hc
    obtain ⟨vs, run'', said⟩ := ih said
    exact ⟨vs, run''.trans (run'.trans run), said⟩

end Node

/-- A statement that is not at the top refers to no file. -/
theorem Says.not_file {p : Place} {kind : Reference} {path : Text} {ks : List Token} :
    ¬ Says (.statement (.file p kind path)) ks := by
  intro h
  generalize hs : Statement.file p kind path = s at h
  cases h with
  | @modified k m s => 
    unfold OfTree.modify at hs
    split at hs <;> cases hs
  | _ => cases hs

/-- A statement with a modifier before it has no room for it. -/
theorem Says.not_hasRoom {p : Place} {m : Modifier} {t : Statement} {ks : List Token}
    (h : Says (.statement (.modified p m t)) ks) : ¬ t.HasRoom := by
  generalize hs : Statement.modified p m t = s at h
  cases h with
  | @modified k m' s =>
    by_cases hr : s.HasRoom
    · match s, hr with
      | .call _ _ _ _ none, _ | .loop _ _ _ none, _ => cases hs
    · rw [Statement.modify_of_not_hasRoom hr] at hs
      cases hs
      exact hr
  | _ => cases hs

/-- The construct refers to a file, with this token. -/
def Node.RefersBy (n : Node) (k : Token) : Prop :=
  Terminal.useFile.Accepts k ∧ n = .statement (.file k.start .use (OfTree.path k.text)) ∨
    Terminal.includeFile.Accepts k ∧
      n = .statement (.file k.start .inclusion (OfTree.path k.text))

/-- A statement of a script is spelled by a run of its tokens, or refers to a file. -/
theorem Says.statement_cases {ss : Script} {ks : List Token} (h : Says (.script ss) ks)
    {s : Statement} (hs : s ∈ ss) :
    (∃ ls, ls <:+: ks ∧ Says (.statement s) ls) ∨ ∃ k ∈ ks, (Node.statement s).RefersBy k := by
  -- what holds of a later statement holds of it behind the tokens of an earlier one
  have later {ks : List Token} (us : List Token) :
      ((∃ ls, ls <:+: ks ∧ Says (.statement s) ls) ∨ ∃ k ∈ ks, (Node.statement s).RefersBy k) →
        (∃ ls, ls <:+: us ++ ks ∧ Says (.statement s) ls) ∨
          ∃ k ∈ us ++ ks, (Node.statement s).RefersBy k := by
    rintro (⟨ls, run, said⟩ | ⟨k, hk, file⟩)
    · exact .inl ⟨ls, run.trans ⟨us, [], by simp⟩, said⟩
    · exact .inr ⟨k, List.mem_append_right us hk, file⟩
  generalize hp : Passage.script ss = p at h
  induction h generalizing ss with
  | @ordinary s' ss' ks ls h _ _ ih =>
    cases hp
    rcases List.mem_cons.1 hs with rfl | hs
    · exact .inl ⟨ks, ⟨[], ls, rfl⟩, h⟩
    · exact later ks (ih hs rfl)
  | @useFile k ss' ks hk _ ih =>
    cases hp
    rcases List.mem_cons.1 hs with rfl | hs
    · exact .inr ⟨k, List.mem_cons_self, .inl ⟨hk, rfl⟩⟩
    · exact later [k] (ih hs rfl)
  | @includeFile k ss' ks hk _ ih =>
    cases hp
    rcases List.mem_cons.1 hs with rfl | hs
    · exact .inr ⟨k, List.mem_cons_self, .inr ⟨hk, rfl⟩⟩
    · exact later [k] (ih hs rfl)
  | emptyScript => cases hp; cases hs
  | _ => cases hp

/-- Nothing but itself stands in a reference. -/
theorem Node.within_file {n : Node} {p : Place} {kind : Reference} {path : Text}
    (w : n.Within (.statement (.file p kind path))) : n = .statement (.file p kind path) := by
  cases w with
  | self => rfl
  | child hc => cases hc

/-- A construct in a script is spelled by a run of its tokens, or is a statement of the script that
refers to a file. -/
theorem Says.node_cases {ss : Script} {ks : List Token} (h : Says (.script ss) ks) {t : Statement}
    (ht : t ∈ ss) {n : Node} (w : n.Within (.statement t)) :
    (∃ ls, ls <:+: ks ∧ n.SpeltBy ls) ∨ n = .statement t ∧ ∃ k ∈ ks, n.RefersBy k := by
  rcases h.statement_cases ht with ⟨ls, run, said⟩ | ⟨k, hk, file⟩
  · have spelt : (Node.statement t).SpeltBy ls := said
    obtain ⟨ms, run', said⟩ := spelt.within w
    exact .inl ⟨ms, run'.trans run, said⟩
  · obtain rfl : n = .statement t := by
      rcases file with ⟨-, he⟩ | ⟨-, he⟩ <;>
        (obtain rfl := Node.statement.inj he; exact Node.within_file w)
    exact .inr ⟨rfl, k, hk, file⟩

/-- A construct in a script that refers to no file is spelled by a run of its tokens. -/
theorem Says.spelt_of_holds {ss : Script} {ks : List Token} (h : Says (.script ss) ks) {n : Node}
    (hn : ss.Holds n) (hf : ∀ p kind path, n ≠ .statement (.file p kind path)) :
    ∃ ls, ls <:+: ks ∧ n.SpeltBy ls := by
  obtain ⟨t, ht, w⟩ := hn
  rcases h.node_cases ht w with spelt | ⟨-, k, -, ⟨-, file⟩ | ⟨-, file⟩⟩
  · exact spelt
  · exact absurd file (hf _ _ _)
  · exact absurd file (hf _ _ _)

end SolidScript
