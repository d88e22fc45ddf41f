import SolidScript.Proofs.Phrase.Expressions

/-!
# Phrase — the trees of statements

What the trees of a rule are read as, for the rules of statements; and with them for all rules.

* `outcome_means`: what every match but that of a whole document is read as.
-/

namespace SolidScript.Grammar
open OfTree
open SolidScript.Tree (firstStart gather)

variable {ts : List Tree} {ks : List Token}

/-! ### Marks and names -/

/-- An equals sign that no other follows is taken. -/
theorem shape_assign (h : (Reading.By Means).Expands Rule.assign.production ts ks) :
    Shape .assign (gather .assign ts) ks := by
  obtain ⟨_, _, _, _, ⟨k, -, hk, rfl, rfl⟩, ⟨_, _, _, _, ⟨-, rfl, rfl⟩, ⟨rfl, rfl⟩, rfl, rfl⟩, rfl,
    rfl⟩ := h
  exact ⟨k, _, rfl, rfl, hk⟩

/-- A comma at the end of a list is taken, or nothing. -/
theorem shape_trailingComma
    (h : (Reading.By Means).Expands Rule.trailingComma.production ts ks) :
    Shape .trailingComma ts ks := by
  rcases h with h | ⟨k, -, hk, rfl, rfl⟩
  · exact .inl h
  · exact .inr ⟨_, k, rfl, rfl, hk⟩

/-- The name of a module that is called is a name or one of three keywords. -/
theorem shape_callName (h : (Reading.By Means).Expands Rule.callName.production ts ks) :
    Shape .callName ts ks := by
  obtain ⟨p, hp, h⟩ := h
  simp only [List.mem_cons, List.not_mem_nil, or_false] at hp
  rcases hp with rfl | rfl | rfl | rfl <;> obtain ⟨k, -, hk, rfl, rfl⟩ := h
  · exact ⟨k, _, rfl, rfl, .inl hk⟩
  · exact ⟨k, _, rfl, rfl, .inr (.inl hk)⟩
  · exact ⟨k, _, rfl, rfl, .inr (.inr (.inl hk))⟩
  · exact ⟨k, _, rfl, rfl, .inr (.inr (.inr hk))⟩

/-! ### Parameters -/

theorem shape_defaultGroup (h : (Reading.By Means).Expands Rule.defaultGroup.production ts ks) :
    ReadsAfter .assign ts ks := by
  obtain ⟨_, _, _, _, ⟨-, k, t, rfl, rfl, hk⟩, ⟨_, _, _, _, ⟨-, u, e, rfl, he, hs⟩, ⟨rfl, rfl⟩, rfl,
    rfl⟩, rfl, rfl⟩ := h
  exact ⟨_, u, e, k, _, rfl, he, rfl, hk, by simpa using hs⟩

/-- The default of a parameter is read as an expression, if there is one. -/
theorem shape_parameterDefault
    (h : (Reading.By Means).Expands Rule.parameterDefault.production ts ks) :
    Shape .parameterDefault (gather .parameterDefault ts) ks := by
  rcases h with ⟨rfl, rfl⟩ | h
  · exact ⟨_, _, rfl, .inl ⟨rfl, rfl⟩⟩
  · exact ⟨_, _, rfl, .inr h.2⟩

/-- A parameter is read as one, with its default if it has one. -/
theorem shape_parameter (h : (Reading.By Means).Expands Rule.parameter.production ts ks) :
    Shape .parameter (gather .parameter ts) ks := by
  obtain ⟨_, _, _, _, ⟨n, -, hn, rfl, rfl⟩, ⟨_, _, _, _, ⟨-, x, us, rfl, h⟩, ⟨rfl, rfl⟩, rfl, rfl⟩,
    rfl, rfl⟩ := h
  rcases h with ⟨rfl, rfl⟩ | ⟨v, w, e, a, ls, rfl, he, rfl, ha, hs⟩
  · exact ⟨_, ⟨n.start, n.text, none⟩, rfl, by simp [parameter?, firstStart, Tree.start?],
      .plain hn⟩
  · exact ⟨_, ⟨n.start, n.text, some e⟩, rfl, by simp [parameter?, he, firstStart, Tree.start?],
      by simpa using SpellsParameter.withDefault hn ha hs⟩

theorem shape_parameterItems
    (h : (Reading.By Means).Expands Rule.parameterItems.production ts ks) :
    ReadsList parameters? SpellsParameter ts ks :=
  readsList_of_chain readsEach_parameters (r := .parameter) (fun _ _ h => h.2) h

/-- Parameters and perhaps a comma are read as the parameters. -/
theorem shape_parameterGroup
    (h : (Reading.By Means).Expands Rule.parameterGroup.production ts ks) :
    Shape .parameterGroup ts ks := by
  obtain ⟨_, _, _, _, hl, ⟨_, _, _, _, hc, ⟨rfl, rfl⟩, rfl, rfl⟩, rfl, rfl⟩ := h
  obtain ⟨ps, hr, h⟩ := reads_of_group hl.2 hc.2
  exact ⟨ps, by simpa using hr, by simpa using h⟩

/-- Parameters, or none, are read as a list. -/
theorem shape_parameters (h : (Reading.By Means).Expands Rule.parameters.production ts ks) :
    Shape .parameters (gather .parameters ts) ks := by
  rcases h with ⟨rfl, rfl⟩ | ⟨-, ps, hr, h⟩
  · exact ⟨_, _, [], rfl, by simp [parameters?], .none⟩
  · exact ⟨_, _, ps, rfl, hr, h⟩

/-! ### Statements of one kind -/

/-- Statements in braces are read as a block. -/
theorem shape_block (h : (Reading.By Means).Expands Rule.block.production ts ks) :
    ReadsStatement (gather .block ts) ks := by
  obtain ⟨_, _, _, _, ⟨o, -, ho, rfl, rfl⟩, ⟨_, _, _, _, ⟨-, x, us, ss, rfl, hr, hs⟩,
    ⟨_, _, _, _, ⟨c, -, hc, rfl, rfl⟩, ⟨rfl, rfl⟩, rfl, rfl⟩, rfl, rfl⟩, rfl, rfl⟩ := h
  exact ⟨_, .block o.start ss, rfl, by simp [statement?, hr, firstStart, Tree.start?],
    .block ho hs hc⟩

/-- A definition of a module is read with its parameters and its body. -/
theorem shape_moduleDefinition
    (h : (Reading.By Means).Expands Rule.moduleDefinition.production ts ks) :
    ReadsStatement (gather .moduleDefinition ts) ks := by
  obtain ⟨_, _, _, _, ⟨m, -, hm, rfl, rfl⟩, ⟨_, _, _, _, ⟨n, -, hn, rfl, rfl⟩,
    ⟨_, _, _, _, ⟨o, -, ho, rfl, rfl⟩, ⟨_, _, _, _, ⟨-, x, us, ps, rfl, hp, hsp⟩,
    ⟨_, _, _, _, ⟨c, -, hc, rfl, rfl⟩, ⟨_, _, _, _, ⟨-, t, s, rfl, hr, hs⟩, ⟨rfl, rfl⟩, rfl, rfl⟩,
    rfl, rfl⟩, rfl, rfl⟩, rfl, rfl⟩, rfl, rfl⟩, rfl, rfl⟩ := h
  exact ⟨_, .moduleDefinition m.start n.text ps s, rfl,
    by simp [statement?, hp, hr, firstStart, Tree.start?],
    by simpa using Says.moduleDefinition hm hn ho hsp hc hs⟩

/-- A definition of a function is read with its parameters and its value. -/
theorem shape_functionDefinition
    (h : (Reading.By Means).Expands Rule.functionDefinition.production ts ks) :
    ReadsStatement (gather .functionDefinition ts) ks := by
  obtain ⟨_, _, _, _, ⟨f, -, hf, rfl, rfl⟩, ⟨_, _, _, _, ⟨n, -, hn, rfl, rfl⟩,
    ⟨_, _, _, _, ⟨o, -, ho, rfl, rfl⟩, ⟨_, _, _, _, ⟨-, x, us, ps, rfl, hp, hsp⟩,
    ⟨_, _, _, _, ⟨c, -, hc, rfl, rfl⟩, ⟨_, _, _, _, ⟨-, a, t, rfl, rfl, ha⟩,
    ⟨_, _, _, _, ⟨-, u, e, rfl, he, hs⟩, ⟨_, _, _, _, ⟨z, -, hz, rfl, rfl⟩, ⟨rfl, rfl⟩, rfl, rfl⟩,
    rfl, rfl⟩, rfl, rfl⟩, rfl, rfl⟩, rfl, rfl⟩, rfl, rfl⟩, rfl, rfl⟩, rfl, rfl⟩ := h
  exact ⟨_, .functionDefinition f.start n.text ps e, rfl,
    by simp [statement?, hp, he, firstStart, Tree.start?],
    by simpa using Says.functionDefinition hf hn ho hsp hc ha hs hz⟩

/-- A name, an equals sign and an expression are read as an assignment. -/
theorem shape_assignment (h : (Reading.By Means).Expands Rule.assignment.production ts ks) :
    ReadsStatement (gather .assignment ts) ks := by
  obtain ⟨_, _, _, _, ⟨n, -, hn, rfl, rfl⟩, ⟨_, _, _, _, ⟨-, a, t, rfl, rfl, ha⟩,
    ⟨_, _, _, _, ⟨-, u, e, rfl, he, hs⟩, ⟨_, _, _, _, ⟨z, -, hz, rfl, rfl⟩, ⟨rfl, rfl⟩, rfl, rfl⟩,
    rfl, rfl⟩, rfl, rfl⟩, rfl, rfl⟩ := h
  exact ⟨_, .assignment n.start n.text e, rfl, by simp [statement?, he, firstStart, Tree.start?],
    by simpa using Says.assignment hn ha hs hz⟩

/-! ### Statements of two families -/

/-- A conditional without an `else` is read as one, whichever family its branch is of. -/
theorem shape_openIf (h : (Reading.By Means).Expands Rule.openIf.production ts ks) :
    ReadsStatement (gather .openIf ts) ks := by
  obtain ⟨_, _, _, _, ⟨i, -, hi, rfl, rfl⟩, ⟨_, _, _, _, ⟨o, -, ho, rfl, rfl⟩,
    ⟨_, _, _, _, ⟨-, t, e, rfl, he, hs⟩, ⟨_, _, _, _, ⟨c, -, hc, rfl, rfl⟩,
    ⟨_, _, _, _, ⟨-, u, a, rfl, ha, hsa⟩, ⟨rfl, rfl⟩, rfl, rfl⟩, rfl, rfl⟩, rfl, rfl⟩, rfl, rfl⟩,
    rfl, rfl⟩ := h
  exact ⟨_, .conditional i.start e a none, rfl,
    by simp [statement?, he, ha, firstStart, Tree.start?],
    by simpa using Says.conditional hi ho hs hc hsa⟩

/-- A conditional with an `else` is read as one, whichever families its branches are of. -/
theorem reads_of_ifElse {r c d : Rule} (hr : r.isGroup = false)
    (read : ∀ p i o e c a l b, statement? (.node r p [i, o, e, c, a, l, b]) =
      do some (.conditional p (← expr? e) (← statement? a) (some (← statement? b))))
    (hc : ∀ ts ks, Means c ts ks → ReadsStatement ts ks)
    (hd : ∀ ts ks, Means d ts ks → ReadsStatement ts ks)
    (h : (Reading.By Means).Expands (.sequence [.word .ifWord, .mark .openParen, .rule .expression,
      .mark .closeParen, .rule c, .word .elseWord, .rule d]) ts ks) :
    ReadsStatement (gather r ts) ks := by
  obtain ⟨_, _, _, _, ⟨i, -, hi, rfl, rfl⟩, ⟨_, _, _, _, ⟨o, -, ho, rfl, rfl⟩,
    ⟨_, _, _, _, ⟨-, t, e, rfl, he, hs⟩, ⟨_, _, _, _, ⟨p, -, hp, rfl, rfl⟩,
    ⟨_, _, _, _, hma, ⟨_, _, _, _, ⟨l, -, hl, rfl, rfl⟩, ⟨_, _, _, _, hmb, ⟨rfl, rfl⟩, rfl, rfl⟩,
    rfl, rfl⟩, rfl, rfl⟩, rfl, rfl⟩, rfl, rfl⟩, rfl, rfl⟩, rfl, rfl⟩ := h
  obtain ⟨u, a, rfl, ha, hsa⟩ := hc _ _ hma
  obtain ⟨v, b, rfl, hb, hsb⟩ := hd _ _ hmb
  refine ⟨_, .conditional i.start e a (some b), by simp only [gather, hr]; rfl, ?_, ?_⟩
  · exact (read _ _ _ _ _ _ _ _).trans (by rw [he, ha, hb]; rfl)
  · simpa using Says.alternative hi ho hs hp hsa hl hsb

/-- A modifier before a statement is read as applied to it, in either family. -/
theorem reads_of_modified {r c : Rule} (hr : r.isGroup = false)
    (read : ∀ p q m s, statement? (.node r p [.leaf .modifier q m, s]) =
      do some (modify p (← Modifier.ofText? m) (← statement? s)))
    (hc : ∀ ts ks, Means c ts ks → ReadsStatement ts ks)
    (h : (Reading.By Means).Expands (.sequence [.term .modifier, .rule c]) ts ks) :
    ReadsStatement (gather r ts) ks := by
  obtain ⟨_, _, _, _, ⟨k, -, hk, rfl, rfl⟩, ⟨_, _, _, _, hm, ⟨rfl, rfl⟩, rfl, rfl⟩, rfl, rfl⟩ := h
  obtain ⟨u, s, rfl, hs, hss⟩ := hc _ _ hm
  obtain ⟨m, hm⟩ : ∃ m, Modifier.ofText? k.text = some m :=
    Option.isSome_iff_exists.1 ((by decide : ∀ w ∈ [['*'], ['!'], ['#'], ['%']],
      (Modifier.ofText? w).isSome = true) _ hk.2)
  refine ⟨_, modify k.start m s, by simp only [gather, hr]; rfl, ?_, ?_⟩
  · exact (read _ _ _ _).trans (by rw [hm, hs]; rfl)
  · simpa using Says.modified hk hm hss

/-- A loop is read as one, in either family. -/
theorem reads_of_for {r c : Rule} (hr : r.isGroup = false)
    (read : ∀ p f o q vs c s, statement? (.node r p [f, o, .node .arguments q vs, c, s]) =
      do some (.loop p (← arguments? vs) (← statement? s) none))
    (hc : ∀ ts ks, Means c ts ks → ReadsStatement ts ks)
    (h : (Reading.By Means).Expands (.sequence [.word .forWord, .mark .openParen, .rule .arguments,
      .mark .closeParen, .rule c]) ts ks) :
    ReadsStatement (gather r ts) ks := by
  obtain ⟨_, _, _, _, ⟨f, -, hf, rfl, rfl⟩, ⟨_, _, _, _, ⟨o, -, ho, rfl, rfl⟩,
    ⟨_, _, _, _, ⟨-, x, us, as, rfl, ha, hsa⟩, ⟨_, _, _, _, ⟨p, -, hp, rfl, rfl⟩,
    ⟨_, _, _, _, hm, ⟨rfl, rfl⟩, rfl, rfl⟩, rfl, rfl⟩, rfl, rfl⟩, rfl, rfl⟩, rfl, rfl⟩ := h
  obtain ⟨u, s, rfl, hs, hss⟩ := hc _ _ hm
  refine ⟨_, .loop f.start as s none, by simp only [gather, hr]; rfl, ?_, ?_⟩
  · exact (read _ _ _ _ _ _ _).trans (by rw [ha, hs]; rfl)
  · simpa using Says.loop hf ho hsa hp hss

/-- A call of a module is read as one, in either family. -/
theorem reads_of_call {r c : Rule} (hr : r.isGroup = false)
    (read : ∀ p t q n o x as c s,
      statement? (.node r p [.leaf t q n, o, .node .arguments x as, c, s]) =
        do some (.call p n (← arguments? as) (← statement? s) none))
    (hc : ∀ ts ks, Means c ts ks → ReadsStatement ts ks)
    (h : (Reading.By Means).Expands (.sequence [.rule .callName, .mark .openParen, .rule .arguments,
      .mark .closeParen, .rule c]) ts ks) :
    ReadsStatement (gather r ts) ks := by
  obtain ⟨_, _, _, _, ⟨-, n, t, rfl, rfl, hn⟩, ⟨_, _, _, _, ⟨o, -, ho, rfl, rfl⟩,
    ⟨_, _, _, _, ⟨-, x, us, as, rfl, ha, hsa⟩, ⟨_, _, _, _, ⟨p, -, hp, rfl, rfl⟩,
    ⟨_, _, _, _, hm, ⟨rfl, rfl⟩, rfl, rfl⟩, rfl, rfl⟩, rfl, rfl⟩, rfl, rfl⟩, rfl, rfl⟩ := h
  obtain ⟨u, s, rfl, hs, hss⟩ := hc _ _ hm
  refine ⟨_, .call n.start n.text as s none, by simp only [gather, hr]; rfl, ?_, ?_⟩
  · exact (read _ _ _ _ _ _ _ _ _).trans (by rw [ha, hs]; rfl)
  · simpa using Says.call hn ho hsa hp hss

/-! ### Statements of all kinds -/

/-- A closed statement is read as a statement, whichever of its alternatives it is. -/
theorem shape_closedStatement
    (h : (Reading.By Means).Expands Rule.closedStatement.production ts ks) :
    ReadsStatement ts ks := by
  obtain ⟨p, hp, h⟩ := h
  simp only [List.mem_cons, List.not_mem_nil, or_false] at hp
  rcases hp with rfl | rfl | rfl | rfl | rfl | rfl | rfl | rfl | rfl
  · obtain ⟨k, -, hk, rfl, rfl⟩ := h
    exact ⟨_, .empty k.start, rfl, statement?_empty _ _, .empty hk⟩
  all_goals exact h.2

/-- An open statement is read as a statement, whichever of its alternatives it is. -/
theorem shape_openStatement
    (h : (Reading.By Means).Expands Rule.openStatement.production ts ks) :
    ReadsStatement ts ks := by
  obtain ⟨p, hp, h⟩ := h
  simp only [List.mem_cons, List.not_mem_nil, or_false] at hp
  rcases hp with rfl | rfl | rfl | rfl | rfl <;> exact h.2

/-- A statement of either family is read as one. -/
theorem shape_statement (h : (Reading.By Means).Expands Rule.statement.production ts ks) :
    ReadsStatement ts ks := by
  obtain ⟨p, hp, h⟩ := h
  simp only [List.mem_cons, List.not_mem_nil, or_false] at hp
  rcases hp with rfl | rfl <;> exact h.2

/-- Statements one after the other are read as those of a block. -/
theorem statements_of_again (h : (Reading.By Means).Again [.rule .statement] ts ks) :
    ∃ ss, statements? ts = some ss ∧ Says (.statements ss) ks := by
  induction h with
  | nil => exact ⟨[], by simp [statements?], .noStatements⟩
  | cons h _ ih =>
    obtain ⟨_, _, _, _, ⟨-, t, s, rfl, hr, hs⟩, ⟨rfl, rfl⟩, rfl, rfl⟩ := h
    obtain ⟨ss, hr', hs'⟩ := ih
    exact ⟨s :: ss, by simp [statements?, hr, hr'], by simpa using Says.nextStatement hs hs'⟩

theorem shape_blockItems (h : (Reading.By Means).Expands Rule.blockItems.production ts ks) :
    Shape .blockItems (gather .blockItems ts) ks := by
  obtain ⟨ss, hr, hs⟩ := statements_of_again h
  exact ⟨_, _, ss, rfl, hr, hs⟩

/-- A reference or a statement at the top is read as one of the script. -/
theorem shape_topStatement (h : (Reading.By Means).Expands Rule.topStatement.production ts ks) :
    Shape .topStatement ts ks := by
  obtain ⟨p, hp, h⟩ := h
  simp only [List.mem_cons, List.not_mem_nil, or_false] at hp
  rcases hp with rfl | rfl | rfl
  · obtain ⟨k, -, hk, rfl, rfl⟩ := h
    exact ⟨_, .file k.start .use (path k.text), rfl, by simp [statement?], fun _ _ => .useFile hk⟩
  · obtain ⟨k, -, hk, rfl, rfl⟩ := h
    exact ⟨_, .file k.start .inclusion (path k.text), rfl, by simp [statement?],
      fun _ _ => .includeFile hk⟩
  · obtain ⟨-, t, s, rfl, hr, hs⟩ := h
    exact ⟨t, s, rfl, hr, fun _ _ => .ordinary hs⟩

/-- Statements and references one after the other are read as a script. -/
theorem script_of_again (h : (Reading.By Means).Again [.rule .topStatement] ts ks) :
    ∃ ss, statements? ts = some ss ∧ Says (.script ss) ks := by
  induction h with
  | nil => exact ⟨[], by simp [statements?], .emptyScript⟩
  | cons h _ ih =>
    obtain ⟨_, _, _, _, ⟨-, t, s, rfl, hr, hs⟩, ⟨rfl, rfl⟩, rfl, rfl⟩ := h
    obtain ⟨ss, hr', hs'⟩ := ih
    exact ⟨s :: ss, by simp [statements?, hr, hr'], by simpa using hs _ _ hs'⟩

theorem shape_statements (h : (Reading.By Means).Expands Rule.statements.production ts ks) :
    Shape .statements (gather .statements ts) ks := by
  obtain ⟨ss, hr, hs⟩ := script_of_again h
  exact ⟨_, _, ss, rfl, hr, hs⟩

/-! ### All rules -/

/-- What the trees of the pieces of a rule are read as passes to the tree of the rule, for every
rule. -/
theorem shape_of_expands (h0 : Starts ts ks) : (r : Rule) →
    (Reading.By Means).Expands r.production ts ks → Shape r (gather r ts) ks
  | .document, _ => trivial
  | .statements, h => shape_statements h
  | .topStatement, h => shape_topStatement h
  | .statement, h => shape_statement h
  | .closedStatement, h => shape_closedStatement h
  | .openStatement, h => shape_openStatement h
  | .block, h => shape_block h
  | .blockItems, h => shape_blockItems h
  | .moduleDefinition, h => shape_moduleDefinition h
  | .functionDefinition, h => shape_functionDefinition h
  | .assignment, h => shape_assignment h
  | .closedIfElse, h =>
    reads_of_ifElse (c := .closedStatement) (d := .closedStatement) rfl
      (fun _ _ _ _ _ _ _ _ => by rw [statement?]) (fun _ _ h => h.2) (fun _ _ h => h.2) h
  | .openIfElse, h =>
    reads_of_ifElse (c := .closedStatement) (d := .openStatement) rfl
      (fun _ _ _ _ _ _ _ _ => by rw [statement?]) (fun _ _ h => h.2) (fun _ _ h => h.2) h
  | .openIf, h => shape_openIf h
  | .closedModified, h =>
    reads_of_modified (c := .closedStatement) rfl (fun _ _ _ _ => by rw [statement?])
      (fun _ _ h => h.2) h
  | .openModified, h =>
    reads_of_modified (c := .openStatement) rfl (fun _ _ _ _ => by rw [statement?])
      (fun _ _ h => h.2) h
  | .closedFor, h =>
    reads_of_for (c := .closedStatement) rfl (fun _ _ _ _ _ _ _ => by rw [statement?])
      (fun _ _ h => h.2) h
  | .openFor, h =>
    reads_of_for (c := .openStatement) rfl (fun _ _ _ _ _ _ _ => by rw [statement?])
      (fun _ _ h => h.2) h
  | .callName, h => shape_callName h
  | .closedCall, h =>
    reads_of_call (c := .closedStatement) rfl (fun _ _ _ _ _ _ _ _ _ => by rw [statement?])
      (fun _ _ h => h.2) h
  | .openCall, h =>
    reads_of_call (c := .openStatement) rfl (fun _ _ _ _ _ _ _ _ _ => by rw [statement?])
      (fun _ _ h => h.2) h
  | .assign, h => shape_assign h
  | .notAssign, h => h
  | .trailingComma, h => shape_trailingComma h
  | .parameters, h => shape_parameters h
  | .parameterGroup, h => shape_parameterGroup h
  | .parameterItems, h => shape_parameterItems h
  | .parameter, h => shape_parameter h
  | .parameterDefault, h => shape_parameterDefault h
  | .defaultGroup, h => shape_defaultGroup h
  | .arguments, h => shape_arguments h
  | .argumentGroup, h => shape_argumentGroup h
  | .argumentItems, h => shape_argumentItems h
  | .argument, h => shape_argument h
  | .namedArgument, h => shape_namedArgument h
  | .positionalArgument, h => shape_positionalArgument h0 h
  | .expression, h => shape_expression h
  | .letExpression, h => shape_letExpression h0 h
  | .letRun, h => shape_letRun h
  | .letClause, h => shape_letClause h
  | .ternaryLevel, h => shape_ternaryLevel h
  | .echoExpression, h =>
    reads_of_led (l := .echo) (by decide) rfl (fun _ _ _ _ _ _ _ => by rw [expr?]) h
  | .assertExpression, h =>
    reads_of_led (l := .assertion) (by decide) rfl (fun _ _ _ _ _ _ _ => by rw [expr?]) h
  | .ternary, h => shape_ternary h0 h
  | .disjunction, h => reads_of_tier .disjunction h0 (fun _ _ h => h.2) h
  | .comparison, h => reads_of_tier .comparison h0 (fun _ _ h => h.2) h
  | .sum, h => reads_of_tier .sum h0 (fun _ _ h => h.2) h
  | .product, h => reads_of_tier .product h0 (fun _ _ h => h.2) h
  | .unaryLevel, h => shape_unaryLevel h
  | .signed, h => shape_signed h
  | .access, h => shape_access h0 h
  | .suffixes, h => shape_suffixes h
  | .suffix, h => shape_suffix h
  | .memberSuffix, h => shape_memberSuffix h
  | .indexSuffix, h => shape_indexSuffix h
  | .primary, h => shape_primary h
  | .parenthesized, h => shape_parenthesized h
  | .functionCall, h => shape_functionCall h
  | .comprehension, h => shape_comprehension h
  | .letClauses, h => shape_letClauses h
  | .range, h => shape_range h
  | .rangeStep, h => shape_rangeStep h
  | .stepGroup, h => reads_after h
  | .vector, h => shape_vector h
  | .vectorBody, h => shape_vectorBody h
  | .vectorGroup, h => shape_vectorGroup h
  | .vectorItems, h => shape_vectorItems h

/-- What passes to every rule from its production holds of it. -/
theorem means_of_expands (r : Rule) (ts : List Tree) (ks : List Token)
    (h : (Reading.By Means).Expands r.production ts ks) : Means r (gather r ts) ks := by
  have h0 : Starts ts ks := starts_of_expands (fun _ _ _ h => h.1) h
  exact ⟨(firstStart_gather r ts).trans h0, shape_of_expands h0 r h⟩

/-- No statement starts with `=`. -/
theorem head_of_says {s : Statement} {ks : List Token} (h : Says (.statement s) ks) :
    ∃ k ls, ks = k :: ls ∧ (k.kind = .symbol → k.text.head? ≠ some '=') := by
  have word {k : Token} {w : Keyword} (h : k.IsWord w) :
      k.kind = .symbol → k.text.head? ≠ some '=' := by
    rw [h.1]; simp
  cases h with
  | empty hk => exact ⟨_, _, rfl, fun _ => by rw [hk.2]; decide⟩
  | block ho => exact ⟨_, _, rfl, fun _ => by rw [ho.2]; decide⟩
  | moduleDefinition hm => exact ⟨_, _, rfl, word hm⟩
  | functionDefinition hf => exact ⟨_, _, rfl, word hf⟩
  | assignment hn => exact ⟨_, _, rfl, by rw [show _ = TokenKind.identifier from hn]; simp⟩
  | conditional hi => exact ⟨_, _, rfl, word hi⟩
  | alternative hi => exact ⟨_, _, rfl, word hi⟩
  | modified hk =>
    refine ⟨_, _, rfl, fun _ => ?_⟩
    have := hk.2
    simp only [List.mem_cons, List.not_mem_nil, or_false] at this
    rcases this with h | h | h | h <;> rw [h] <;> decide
  | loop hf => exact ⟨_, _, rfl, word hf⟩
  | call hn =>
    refine ⟨_, _, rfl, ?_⟩
    rcases hn with hn | hn | hn | hn
    · rw [show _ = TokenKind.identifier from hn]; simp
    · exact word hn
    · exact word hn
    · exact word hn

/-- Every match of a rule but that for documents lies over tokens, and is read as what these
spell. -/
theorem outcome_means {r : Rule} (hr : r ≠ .document) {here next : Cursor} {ts : List Tree}
    (h : outcome (.rule r) here = some (ts, next)) : ∃ ks, Laid here ks next ∧ Means r ts ks := by
  refine outcome_laid means_of_expands (fun r ts ks hr h => ?_) hr h
  have reads : ReadsStatement ts ks := by rcases hr with rfl | rfl <;> exact h.2
  obtain ⟨t, s, -, -, hs⟩ := reads
  exact head_of_says hs

end SolidScript.Grammar
