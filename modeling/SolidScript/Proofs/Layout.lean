import SolidScript.Proofs.Phrase.Alike
import SolidScript.Proofs.Phrase.Standing
import SolidScript.Proofs.Same

/-!
# Scripts — layout

What stands between tokens does not matter.  The grammar looks at characters, yet what it finds is
decided by the classes and texts of the tokens alone: blanks and comments may come, go and change
as long as the tokens stay.

* `layout_parseWith`: sources with the same tokens are read as the same script, places aside.
-/

namespace SolidScript

namespace Script
open Grammar (LaidToEnd laid_of_reads ofSource_eq_ok_iff says_of_parseWith sealed_of_parseWith
  Settings)

/-- Sources with the same tokens are read as the same script, places aside: if one is read, and no
name in it starts a reference, then it has tokens, and every source with tokens of the same classes
and texts in the same order is read. -/
theorem layout_parseWith {settings : Settings} {source : Text} {s : Script}
    (h : parseWith settings source = .ok s) (names : s.NamesNoReference) :
    ∃ ks, Token.ofSource source = .ok ks ∧
      ∀ other ls, Token.ofSource other = .ok ls → ls.map Token.shape = ks.map Token.shape →
        ∃ t, ReadAs other t ∧ s.same t = true ∧ t.bare = s.bare := by
  obtain ⟨ks, laid, said, -⟩ := says_of_parseWith h
  obtain ⟨tokens, -⟩ := ofSource_of_says said laid names
  refine ⟨ks, tokens, fun other ls hl shapes => ?_⟩
  obtain ⟨t, said', places⟩ := said.alike rfl (allAlike_of_shapes shapes)
  have sealed := Node.forall_sealed_of_mapPlaces places (sealed_of_parseWith h)
  have proper : ∀ k ∈ ks, k.IsName → Keyword.isKeyword k.text = false := fun k hk => by
    obtain ⟨_, laid, -⟩ := laid
    obtain ⟨_, _, hat⟩ := laid.exists_at hk
    exact hat.not_keyword
  rw [← Statement.mapPlacesList_eq_map, ← Statement.mapPlacesList_eq_map] at places
  exact ⟨t, readAs_of_says said' sealed (laid_of_reads (ofSource_eq_ok_iff.1 hl)),
    same_of_mapPlaces places (allNumbers_words said proper), places.symm⟩

theorem layout_parseWith_assignment :
    ∃ t, ReadAs (Text.lit " a/* b */= b\n;//") t ∧
      t.bare = [.assignment none ['a'] (.variable none ['b'])] := by
  have read : parseWith ⟨40, false⟩ (Text.lit "a=b;") =
      .ok [.assignment (some 0) ['a'] (.variable (some 2) ['b'])] := eq_ok_copy (by decide +kernel)
  obtain ⟨ks, tokens, same⟩ := layout_parseWith read namesNoReference_copy
  have first : Token.ofSource (Text.lit "a=b;") =
      .ok [⟨.identifier, ['a'], 0⟩, ⟨.symbol, ['='], 1⟩, ⟨.identifier, ['b'], 2⟩,
        ⟨.symbol, [';'], 3⟩] := by decide +kernel
  have second : Token.ofSource (Text.lit " a/* b */= b\n;//") =
      .ok [⟨.identifier, ['a'], 1⟩, ⟨.symbol, ['='], 9⟩, ⟨.identifier, ['b'], 11⟩,
        ⟨.symbol, [';'], 13⟩] := by decide +kernel
  rw [first] at tokens
  cases tokens
  obtain ⟨t, reads, -, bare⟩ := same _ _ second rfl
  exact ⟨t, reads, bare⟩

end Script

end SolidScript
