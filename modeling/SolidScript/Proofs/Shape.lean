import SolidScript.Proofs.Number.Exact
import SolidScript.Proofs.Phrase.Nodes
import SolidScript.Proofs.Phrase.Sample
import SolidScript.Proofs.Phrase.Subtrees
import SolidScript.Proofs.Same

/-!
# Scripts — the shape of what is read

What is read from a source is narrower than what can be written down as a script: files are referred
to at the top only, a modifier goes where there is room for it, names and texts can be written in a
source, and numbers are those of single precision.

Names and texts are those of tokens, and a token stands alone just as it stands in the source
(`Token.isWhole_of_at`).

* `Script.WellShaped`: the shape.
* `wellShaped_of_parseWith`: everything that is read has it.
-/

namespace SolidScript
open Grammar (At Laid)
open Number (Double)
open Number.Format (binary32 binary64)
open Text (lit)

/-! ### Shapes -/

/-- The text is one token of this class from its first character to its last. -/
def Token.IsWhole (kind : TokenKind) (t : Text) : Prop := Token.ofSource t = .ok [⟨kind, t, 0⟩]

/-- The names of modules that are no names of anything else. -/
def Node.keywordCallees : List Text := [lit "echo", lit "let", lit "assert"]

/-- The shape of a script that is read from a source. -/
structure Script.WellShaped (s : Script) : Prop where
  files : ∀ t ∈ s, ∀ p kind path, (Node.statement (.file p kind path)).Within (.statement t) →
    t = .file p kind path ∧ '>' ∉ path
  modifiers : ∀ p m t, s.Holds (.statement (.modified p m t)) → ¬ t.HasRoom
  names : ∀ n : Node, s.Holds n → ∀ t, n.name? = some t →
    Token.IsWhole .identifier t ∨ n.IsModuleCall ∧ t ∈ Node.keywordCallees
  texts : ∀ p t, s.Holds (.expr (.text p t)) → Token.IsWhole .string ('"' :: (t ++ ['"']))
  numbers : ∀ p v, s.Holds (.expr (.number p v)) → v.IsSingle

/-! ### Tokens alone -/

/-- A token that nothing follows is no word of a reference, which is longer. -/
theorem Grammar.next_of_last {here next : Cursor} {k : Token} (h : tokenAt here = some (k, next))
    (last : next.rest = []) : Token.next here = .token k next := by
  refine next_of_no_reference h fun w hw => ?_
  cases reference : Lexeme.reference w (afterSkip here).rest with
  | none => rfl
  | some o =>
    obtain ⟨u, r⟩ := o
    obtain ⟨s, front⟩ := front_of_reference hw reference
    obtain ⟨-, -, longer⟩ := Lexeme.name_of_reference hw reference
    obtain ⟨rfl, -⟩ : k.text = w ∧ _ := by
      obtain ⟨o, front', he⟩ := Option.map_eq_some_iff.1 h
      rw [front] at front'
      cases front'
      cases he
      exact ⟨rfl, trivial⟩
    have short := congrArg List.length (rest_of_tokenAt h).1
    have long := congrArg List.length ((Lexeme.splits_reference _).append_eq reference)
    rw [last, List.length_append, List.length_nil] at short
    rw [List.length_append] at long
    omega

/-- A token that lies in a source is one of its own. -/
theorem Token.isWhole_of_at {here next : Cursor} {k : Token} (h : At here k next) :
    IsWhole k.kind k.text := by
  have alone := Grammar.at_of_alone h.alone [] (.nil _) 0
  simp only [Grammar.written, List.flatMap_nil, List.append_nil, List.nil_append, List.length_nil,
    Nat.zero_add] at alone
  have next : Token.next (.start k.text) = .token ⟨k.kind, k.text, 0⟩ ⟨k.text.length, []⟩ := by
    cases alone with
    | plain token => exact Grammar.next_of_last token rfl
    | reference h => exact h
  exact Grammar.ofSource_eq_ok_iff.2 (.token next (.done rfl))

/-! ### Numbers -/

/-- The value of a numeral is one of single precision. -/
theorem Number.Numeral.isSingle_value (n : Numeral) : n.value.IsSingle := by
  have le : n.single ≤ binary32.infinity := by
    unfold single toSingle
    split
    · exact Nat.le_refl _
    · exact Format.nearest_le_infinity _ _ _
  rcases Nat.lt_or_eq_of_le le with finite | infinite
  · obtain ⟨units, lt⟩ := ofSingle_units finite
    have fits : ofSingle n.single < Double.signBit := lt.trans (by decide)
    have code : n.value.code = ofSingle n.single := Double.code_ofCode fits
    exact ⟨Double.negative_ofCode fits, n.isNaN_value, .inr ⟨n.single, finite, by rw [code, units]⟩⟩
  · rw [value, infinite]
    exact ⟨by decide, by decide, .inl (by decide)⟩

/-! ### What is read -/

theorem Token.IsCallee.mem_keywordCallees {k : Token} (h : k.IsCallee) (hn : ¬ k.IsName) :
    k.text ∈ Node.keywordCallees := by
  rcases h with h | h | h | h
  · exact absurd h hn
  all_goals
    obtain ⟨-, text⟩ := h
    rw [text]
    decide

/-- A name of what is built from tokens that lie in a source. -/
theorem Node.MadeOf.name {here next : Cursor} {ks ls : List Token} (hl : Laid here ks next)
    {n : Node} {k : Token} (hs : (k :: ls) <:+: ks) (h : n.MadeOf k ls) {t : Text}
    (ht : n.name? = some t) :
    Token.IsWhole .identifier t ∨ n.IsModuleCall ∧ t ∈ keywordCallees := by
  obtain ⟨l, hm, rfl, name⟩ := h.named t ht
  obtain ⟨there, after, at_⟩ := hl.exists_at (hs.subset hm)
  by_cases hn : l.IsName
  · have whole := Token.isWhole_of_at at_
    exact .inl (by rwa [show l.kind = .identifier from hn] at whole)
  · obtain ⟨call, callee⟩ := name.resolve_left hn
    exact .inr ⟨call, callee.mem_keywordCallees hn⟩

namespace Script

/-- What tokens that lie in a source say has the shape. -/
theorem wellShaped_of_says {here stop : Cursor} {ks : List Token} {s : Script}
    (laid : Laid here ks stop) (said : Says (.script s) ks) : s.WellShaped := by
  have made {n : Node} (hn : s.Holds n) (hf : ∀ p kind path, n ≠ .statement (.file p kind path)) :
      ∃ k ms, (k :: ms) <:+: ks ∧ n.MadeOf k ms := by
    obtain ⟨ls, run, spelt⟩ := said.spelt_of_holds hn hf
    exact spelt.madeWithin.mono run
  refine ⟨?files, ?modifiers, ?names, ?texts, ?numbers⟩
  case files =>
    intro t ht p kind path w
    rcases said.node_cases ht w with ⟨ls, -, spelt⟩ | ⟨he, k, hk, refers⟩
    · exact absurd spelt Says.not_file
    · refine ⟨(Node.statement.inj he).symm, ?_⟩
      obtain ⟨there, after, at_⟩ := laid.exists_at hk
      have inside (reference : k.IsReference) : '>' ∉ OfTree.path k.text := by
        obtain ⟨-, -, -, inside⟩ := at_.path_of_reference reference
        exact inside
      rcases refers with ⟨kind, file⟩ | ⟨kind, file⟩
      · cases file
        exact inside (.inl kind)
      · cases file
        exact inside (.inr kind)
  case modifiers =>
    intro p m t hn
    obtain ⟨ls, -, spelt⟩ := said.spelt_of_holds hn nofun
    exact Says.not_hasRoom spelt
  case names =>
    intro n hn t ht
    obtain ⟨k, ms, run, made⟩ := made hn (by rintro _ _ _ rfl; cases ht)
    exact made.name laid run ht
  case texts =>
    intro p t hn
    obtain ⟨k, ms, run, made⟩ := made hn nofun
    obtain ⟨hk, rfl⟩ := made.opens
    obtain ⟨there, after, at_⟩ := laid.exists_at (run.subset List.mem_cons_self)
    rw [← at_.inner_of_string hk]
    have whole := Token.isWhole_of_at at_
    rwa [show k.kind = .string from hk] at whole
  case numbers =>
    intro p v hn
    obtain ⟨k, ms, -, made⟩ := made hn nofun
    obtain ⟨-, value⟩ := made.opens
    obtain ⟨n, -, rfl⟩ := Option.map_eq_some_iff.1 value
    exact n.isSingle_value

/-- What is read from a source has the shape. -/
theorem wellShaped_of_parseWith {settings : Grammar.Settings} {source : Text} {s : Script}
    (h : parseWith settings source = .ok s) : s.WellShaped := by
  obtain ⟨ks, ⟨stop, laid, -⟩, said, -⟩ := Grammar.says_of_parseWith h
  exact wellShaped_of_says laid said

/-- A source with a reference, modifiers before a loop and a call, a name that is a keyword, a text
and a number. -/
theorem wellShaped_of_parseWith_modified :
    ∃ s, parseWith ⟨100, false⟩ (lit "use <a>\n#for(i=2)*!echo(\"x\");") = .ok s ∧
      s.WellShaped := by
  have accepted : (match parseWith ⟨100, false⟩ (lit "use <a>\n#for(i=2)*!echo(\"x\");") with
      | .ok _ => true
      | .error _ => false) = true := by decide +kernel
  split at accepted
  · rename_i s h
    exact ⟨s, h, wellShaped_of_parseWith h⟩
  · cases accepted

end Script

end SolidScript
