import SolidScript.Proofs.Lexical.Longest
import SolidScript.Proofs.Phrase.Deriving
import SolidScript.Proofs.Phrase.Source

/-!
# Phrase — every tree in a tree

A tree is read by reading the trees in it.  Every one of them can be read, whatever rule left it
and however many pieces that rule took, and every leaf is a token of the source.

* `OfTree.Readable`: the step that reads a tree comes to something, its own trees granted.
* `readable_of_accepted`: so does every step in the tree of a source.
-/

namespace SolidScript

namespace Tree

/-- The trees directly in a tree. -/
def children : Tree → List Tree
  | leaf _ _ _  => []
  | node _ _ ts => ts

/-- The first tree stands in the second, at any depth, or is the second. -/
inductive Within : Tree → Tree → Prop where
  | self (t : Tree) : Within t t
  | child {s t c : Tree} (h : c ∈ t.children) (w : Within s c) : Within s t

/-- Every tree in the tree is such. -/
def All (P : Tree → Prop) (t : Tree) : Prop := ∀ s, s.Within t → P s

variable {P Q : Tree → Prop}

theorem all_iff {t : Tree} : t.All P ↔ P t ∧ ∀ c ∈ t.children, c.All P := by
  constructor
  · exact fun h => ⟨h t (.self t), fun c hc s hs => h s (.child hc hs)⟩
  · rintro ⟨ht, hc⟩ s hs
    cases hs with
    | self => exact ht
    | child hm hw => exact hc _ hm s hw

theorem All.imp {t : Tree} (h : t.All P) (hi : ∀ s, P s → Q s) : t.All Q :=
  fun s hs => hi s (h s hs)

end Tree

namespace OfTree

/-- The step that reads the tree comes to something: its trees are as many as the step takes apart
and of the kinds that it looks for, an operator is one, and a numeral has a value. -/
def Readable : Tree → Prop
  | .leaf t _ x =>
    match t with
    | .number                    => (Number.Numeral.value? x).isSome
    | .modifier                  => (Modifier.ofText? x).isSome
    | .unary                     => ∀ p e, (signed? p x e).isSome
    | .logical | .comparison | .additive | .multiplicative => (BinaryOp.ofText? x).isSome
    | .useFile | .includeFile    => ∃ w, '<' ∉ w ∧ x = w ++ '<' :: (path x ++ ['>'])
    | .string                    => x = '"' :: (inner x ++ ['"'])
    | _                          => True
  | .node r p ts =>
    match r with
    | .statements | .blockItems => (statements? ts).isSome
    | .block | .moduleDefinition | .functionDefinition | .assignment | .closedIfElse | .openIfElse
    | .openIf | .closedModified | .openModified | .closedFor | .openFor | .closedCall | .openCall =>
      (statement? (.node r p ts)).isSome
    | .parameters => (parameters? ts).isSome
    | .parameter => (parameter? (.node r p ts)).isSome
    | .arguments => (arguments? ts).isSome
    | .namedArgument | .positionalArgument => (argument? (.node r p ts)).isSome
    | .parameterDefault | .rangeStep => ts = [] ∨ ∃ m e, ts = [m, e] ∧ (expr? e).isSome
    | .letRun | .letClauses => (clauses? ts).isSome
    | .letClause => (clauses? [.node r p ts]).isSome
    | .letExpression | .echoExpression | .assertExpression | .ternary | .disjunction | .comparison
    | .sum | .product | .signed | .access | .parenthesized | .functionCall | .comprehension | .range
    | .vector => (expr? (.node r p ts)).isSome
    | .memberSuffix | .indexSuffix => ∀ q e, (suffixes? q e [.node r p ts]).isSome
    | .vectorBody => (items? ts).isSome
    | _ => True

end OfTree

namespace Grammar
open OfTree
open SolidScript.Tree (gather)

/-- A leaf is one of the tokens, and a node can be read. -/
def Built (ks : List Token) : Tree → Prop
  | .leaf t p x  => ∃ k ∈ ks, t.Accepts k ∧ p = k.start ∧ x = k.text
  | .node r p ts => Readable (.node r p ts)

theorem Built.mono {ks ls : List Token} (h : ∀ k ∈ ks, k ∈ ls) : ∀ {t : Tree}, Built ks t → Built ls t
  | .leaf _ _ _, ⟨k, hk, ha⟩ => ⟨k, h k hk, ha⟩
  | .node _ _ _, hb => hb

/-- The trees are built over the tokens. -/
def AllBuilt (ts : List Tree) (ks : List Token) : Prop := ∀ t ∈ ts, t.All (Built ks)

theorem AllBuilt.append {ts us : List Tree} {ks ls : List Token} (h : AllBuilt ts ks)
    (k : AllBuilt us ls) : AllBuilt (ts ++ us) (ks ++ ls) := by
  intro t ht
  rcases List.mem_append.1 ht with ht | ht
  · exact (h t ht).imp fun _ => Built.mono fun _ => List.mem_append_left _
  · exact (k t ht).imp fun _ => Built.mono fun _ => List.mem_append_right _

/-- The node that a rule leaves can be read. -/
theorem readable_of_shape {r : Rule} {p : Option Nat} {us : List Tree} {ks : List Token}
    (h : Shape r [.node r p us] ks) : Readable (.node r p us) := by
  cases r with
  | block | moduleDefinition | functionDefinition | assignment | closedIfElse | openIfElse | openIf
  | closedModified | openModified | closedFor | openFor | closedCall | openCall =>
    obtain ⟨_, s, he, hs, -⟩ := h
    cases he
    exact Option.isSome_of_eq_some hs
  | letExpression | echoExpression | assertExpression | ternary | disjunction | comparison | sum
  | product | signed | access | parenthesized | functionCall | comprehension | range | vector =>
    obtain ⟨_, e, he, hs, -⟩ := h
    cases he
    exact Option.isSome_of_eq_some hs
  | parameter | namedArgument | positionalArgument =>
    obtain ⟨_, a, he, hs, -⟩ := h
    cases he
    exact Option.isSome_of_eq_some hs
  | statements | blockItems | parameters | arguments | letClauses | vectorBody =>
    obtain ⟨_, _, as, he, hs, -⟩ := h
    cases he
    exact Option.isSome_of_eq_some hs
  | letRun =>
    obtain ⟨_, _, gs, he, hs, -⟩ := h
    cases he
    exact Option.isSome_of_eq_some hs
  | parameterDefault | rangeStep =>
    obtain ⟨_, _, he, hs⟩ := h
    cases he
    rcases hs with ⟨rfl, -⟩ | ⟨m, t, e, -, -, rfl, hs, -⟩
    · exact .inl rfl
    · exact .inr ⟨m, t, rfl, Option.isSome_of_eq_some hs⟩
  | letClause =>
    obtain ⟨_, g, he, hs, -⟩ := h
    cases he
    exact Option.isSome_of_eq_some (hs [] [] (by simp [clauses?]))
  | memberSuffix | indexSuffix =>
    obtain ⟨_, s, he, hs, -⟩ := h
    cases he
    intro q e
    rw [hs]
    simp [suffixes?]
  | _ => trivial

section Expands
variable {M : Rule → List Tree → List Token → Prop} (hM : ∀ r ts ks, M r ts ks → AllBuilt ts ks)
include hM

theorem allBuilt_of_by {p : Piece} {ts : List Tree} {ks : List Token} (h : Reading.By M p ts ks) :
    AllBuilt ts ks := by
  cases p with
  | rule r => exact hM r ts ks h
  | term t =>
    obtain ⟨k, -, ha, rfl, rfl⟩ := h
    intro s hs
    obtain rfl := List.mem_singleton.1 hs
    exact Tree.all_iff.2 ⟨⟨k, List.mem_singleton_self k, ha, rfl, rfl⟩, nofun⟩

theorem allBuilt_of_inOrder :
    ∀ {ps : List Piece} {ts : List Tree} {ks : List Token},
      (Reading.By M).InOrder ps ts ks → AllBuilt ts ks
  | [], _, _, h => by
      obtain ⟨rfl, rfl⟩ := h
      exact nofun
  | _ :: _, _, _, h => by
      obtain ⟨us, ls, vs, ms, hp, h, rfl, rfl⟩ := h
      exact (allBuilt_of_by hM hp).append (allBuilt_of_inOrder h)

theorem allBuilt_of_again {ps : List Piece} {ts : List Tree} {ks : List Token}
    (h : (Reading.By M).Again ps ts ks) : AllBuilt ts ks := by
  induction h with
  | nil => exact nofun
  | cons h _ ih => exact (allBuilt_of_inOrder hM h).append ih

/-- The trees of the pieces of a production are built over its tokens. -/
theorem allBuilt_of_expands {q : Production} {ts : List Tree} {ks : List Token}
    (h : (Reading.By M).Expands q ts ks) : AllBuilt ts ks := by
  cases q with
  | sequence ps => exact allBuilt_of_inOrder hM h
  | choice ps =>
    obtain ⟨p, -, h⟩ := h
    exact allBuilt_of_by hM h
  | maybe p =>
    rcases h with ⟨rfl, rfl⟩ | h
    · exact nofun
    · exact allBuilt_of_by hM h
  | many p => exact allBuilt_of_again hM h
  | chain p s =>
    obtain ⟨us, ls, vs, ms, hp, h, rfl, rfl⟩ := h
    exact (allBuilt_of_by hM hp).append (allBuilt_of_again hM h)
  | notAhead t =>
    obtain ⟨rfl, rfl⟩ := h
    exact nofun

end Expands

/-- Every tree of a match can be read, and its leaves are the tokens that it lies over. -/
theorem outcome_built {r : Rule} (hr : r ≠ .document) {here next : Cursor} {ts : List Tree}
    (h : outcome (.rule r) here = some (ts, next)) :
    ∃ ks, Laid here ks next ∧ Means r ts ks ∧ AllBuilt ts ks := by
  refine outcome_laid (M := fun r ts ks => Means r ts ks ∧ AllBuilt ts ks)
    (fun r ts ks h => ?_) (fun r ts ks hr h => ?_) hr h
  · have means := means_of_expands r ts ks (Reading.expands_imp (fun p us ls h => by
      cases p with
      | term t => exact h
      | rule q => exact h.1) h)
    have built : AllBuilt ts ks := allBuilt_of_expands (fun _ _ _ h => h.2) h
    refine ⟨means, ?_⟩
    unfold gather at means ⊢
    split
    · exact built
    · rename_i node
      rw [if_neg node] at means
      intro s hs
      obtain rfl := List.mem_singleton.1 hs
      exact Tree.all_iff.2 ⟨readable_of_shape means.2, built⟩
  · have reads : ReadsStatement ts ks := by rcases hr with rfl | rfl <;> exact h.1.2
    obtain ⟨t, s, -, -, hs⟩ := reads
    exact head_of_says hs

/-! ### Leaves -/

/-- What a terminal reads at the place of a token that it stands for. -/
theorem At.reads {t : Terminal} (ht : isFaithful t = true) {here next : Cursor} {k : Token}
    (h : At here k next) (ha : t.Accepts k) :
    t.reader (afterSkip here).rest = some (k.text, next.rest) := by
  obtain ⟨⟨u, m⟩, hu, he⟩ := Option.map_eq_some_iff.1 (h.terminal ht ha)
  obtain ⟨⟨v, r⟩, hv, hm⟩ := Option.map_eq_some_iff.1 hu
  simp only [Prod.mk.injEq, List.cons.injEq, Tree.leaf.injEq] at he hm
  obtain ⟨rfl, rfl⟩ := hm
  obtain ⟨⟨⟨-, -, rfl⟩, -⟩, rfl⟩ := he
  exact hv

theorem path_append {w b p : Text} (hw : '<' ∉ w) (hb : '<' ∉ b) :
    path (w ++ (b ++ '<' :: (p ++ ['>']))) = p := by
  have skipped : ∀ c ∈ w ++ b, (c != '<') = true := by
    intro c hc
    simp only [bne_iff_ne]
    rintro rfl
    exact (List.mem_append.1 hc).elim hw hb
  rw [path, ← List.append_assoc, List.dropWhile_append_of_pos skipped]
  simp

/-- A reference to a file has its path between the first `<` and the `>` that it ends in. -/
theorem At.path_of_reference {here next : Cursor} {k : Token} (h : At here k next)
    (hk : k.IsReference) :
    ∃ w, '<' ∉ w ∧ k.text = w ++ '<' :: (path k.text ++ ['>']) ∧ '>' ∉ path k.text := by
  obtain ⟨w, hw, hr⟩ : ∃ w ∈ Lexeme.referenceWords,
      Lexeme.reference w (afterSkip here).rest = some (k.text, next.rest) := by
    rcases hk with hk | hk
    · exact ⟨_, .head _, h.reads (t := .useFile) rfl hk⟩
    · exact ⟨_, .tail _ (.head _), h.reads (t := .includeFile) rfl hk⟩
  obtain ⟨b, p, text, -, blank, free⟩ := Lexeme.reference_eq_some_iff.1 hr
  have word : '<' ∉ w := (by decide : ∀ w ∈ Lexeme.referenceWords, '<' ∉ w) w hw
  have gap : '<' ∉ b := fun hm => absurd (blank _ hm) (by decide)
  have hp : path k.text = p := by rw [text, path_append word gap]
  rw [hp]
  exact ⟨w ++ b, by simp [word, gap], by rw [text, List.append_assoc], free⟩

/-- A string has its quotes first and last. -/
theorem At.inner_of_string {here next : Cursor} {k : Token} (h : At here k next)
    (hk : k.kind = .string) : k.text = '"' :: (inner k.text ++ ['"']) := by
  have hr : Lexeme.string _ = _ := h.reads (t := .string) rfl hk
  obtain ⟨u, s, v, hu, hv, text⟩ := Reader.andThen_eq_some_iff.1 hr
  obtain ⟨rfl, -⟩ := Reader.word_eq_some_iff.1 hu
  obtain ⟨b, rfl, -⟩ := Lexeme.spells_of_stringRest hv
  rw [text]
  simp [OfTree.inner]

/-- What can be read of a token can be read of its leaf. -/
theorem readable_of_at {here next : Cursor} {k : Token} (h : At here k next) {t : Terminal}
    (ha : t.Accepts k) : Readable (.leaf t k.start k.text) := by
  cases t with
  | useFile =>
    obtain ⟨w, hw, text, -⟩ := h.path_of_reference (.inl ha)
    exact ⟨w, hw, text⟩
  | includeFile =>
    obtain ⟨w, hw, text, -⟩ := h.path_of_reference (.inr ha)
    exact ⟨w, hw, text⟩
  | string => exact h.inner_of_string ha
  | number =>
    obtain ⟨v, hv⟩ := h.proper ha
    exact Option.isSome_of_eq_some hv
  | modifier =>
    have read : ∀ u ∈ [['*'], ['!'], ['#'], ['%']], (Modifier.ofText? u).isSome := by decide
    exact read _ ha.2
  | unary =>
    intro p e
    have read : ∀ u ∈ [['-'], ['+'], ['!']], (signed? p u e).isSome := by simp [signed?]
    exact read _ ha.2
  | logical =>
    obtain ⟨o, ho⟩ := Tier.exists_op (t := .disjunction) ha
    exact Option.isSome_of_eq_some ho
  | comparison =>
    obtain ⟨o, ho⟩ := Tier.exists_op (t := .comparison) ha
    exact Option.isSome_of_eq_some ho
  | additive =>
    obtain ⟨o, ho⟩ := Tier.exists_op (t := .sum) ha
    exact Option.isSome_of_eq_some ho
  | multiplicative =>
    obtain ⟨o, ho⟩ := Tier.exists_op (t := .product) ha
    exact Option.isSome_of_eq_some ho
  | _ => trivial

/-! ### The tree of a source -/

/-- Every tree in the tree of a source can be read. -/
theorem readable_of_accepted {settings : Settings} {source : Text} {tree : Tree}
    (h : judge settings source = .accepted tree) : tree.All Readable := by
  obtain ⟨next, ho⟩ := judge_eq_accepted h
  obtain ⟨us, there, hm, -, -, ht⟩ := document_eq_some_iff.1 ho
  obtain ⟨ks, laid, ⟨-, p, vs, ss, rfl, -⟩, built⟩ := outcome_built (by decide) hm
  cases ht
  refine Tree.all_iff.2 ⟨trivial, fun t ht => ?_⟩
  have leaves {t : Tree} (h : Built ks t) : Readable t := by
    cases t with
    | node r p ts => exact h
    | leaf t p x =>
      obtain ⟨k, hk, ha, rfl, rfl⟩ := h
      obtain ⟨_, _, token⟩ := laid.exists_at hk
      exact readable_of_at token ha
  rcases List.mem_cons.1 ht with rfl | ht
  · exact (built _ (.head _)).imp fun _ => leaves
  · obtain rfl := List.mem_singleton.1 ht
    exact Tree.all_iff.2 ⟨trivial, nofun⟩

end Grammar

end SolidScript
