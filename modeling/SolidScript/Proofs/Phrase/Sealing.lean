import SolidScript.Proofs.Phrase.Basic
import SolidScript.Proofs.Sealed

/-!
# Phrase — another way to say it

Where tokens say statements in which some `else` belongs to an `if` further out, they also say
statements in which every `else` belongs to the nearest: what stands between the two is no part of
the inner conditional any more than of the outer one, so the `else` can be moved.

* `sealed_of_says`: what tokens say, they say of something sealed.
-/

namespace SolidScript

open Statement (EndsOpen)

/-- An `else` after the statement can go to the conditional that the statement ends in. -/
def TakesElse : Passage → List Token → Prop
  | .statement s, ks => (Node.statement s).Sealed → s.EndsOpen →
    ∀ {l : Token} {b : Statement} {ls : List Token}, l.IsWord .elseWord →
      Says (.statement b) ls → (Node.statement b).Sealed →
        ∃ s', Says (.statement s') (ks ++ l :: ls) ∧ (Node.statement s').Sealed
  | _, _ => True

theorem takesElse_of_says {p : Passage} {ks : List Token} (h : Says p ks) : TakesElse p ks := by
  induction h with
  | empty => exact fun _ ho => absurd ho (by simp)
  | block => exact fun _ ho => absurd ho (by simp)
  | functionDefinition => exact fun _ ho => absurd ho (by simp)
  | assignment => exact fun _ ho => absurd ho (by simp)
  | moduleDefinition hm hn ho hp hc _ ih =>
    intro hs hopen l b ls hl hb hsb
    obtain ⟨s', said, hs'⟩ := ih (by simpa using hs) (by simpa using hopen) hl hb hsb
    exact ⟨_, by simpa using Says.moduleDefinition hm hn ho hp hc said, by simpa using hs'⟩
  | @conditional i o c e a _ _ hi ho he hc ha ih =>
    intro hs _ l b ls hl hb hsb
    have hs : (Node.statement a).Sealed := by simpa using hs
    by_cases hopen : a.EndsOpen
    · obtain ⟨s', said, hs'⟩ := ih hs hopen hl hb hsb
      exact ⟨_, by simpa using Says.conditional hi ho he hc said, by simpa using hs'⟩
    · exact ⟨_, by simpa using Says.alternative hi ho he hc ha hl hb,
        Node.sealed_alternative.2 ⟨hs, hsb, hopen⟩⟩
  | alternative hi ho he hc ha hl' _ _ ih =>
    intro hs hopen l b ls hl hb hsb
    obtain ⟨hsa, hsb', hnot⟩ := Node.sealed_alternative.1 hs
    obtain ⟨s', said, hs'⟩ := ih hsb' (by simpa using hopen) hl hb hsb
    exact ⟨_, by simpa using Says.alternative hi ho he hc ha hl' said,
      Node.sealed_alternative.2 ⟨hsa, hs', hnot⟩⟩
  | modified hk hm _ ih =>
    intro hs hopen l b ls hl hb hsb
    obtain ⟨s', said, hs'⟩ := ih (by simpa using hs) (by simpa using hopen) hl hb hsb
    exact ⟨_, by simpa using Says.modified hk hm said, by simpa using hs'⟩
  | loop hf ho ha hc _ ih =>
    intro hs hopen l b ls hl hb hsb
    obtain ⟨s', said, hs'⟩ := ih (by simpa using hs) (by simpa using hopen) hl hb hsb
    exact ⟨_, by simpa using Says.loop hf ho ha hc said, by simpa using hs'⟩
  | call hn ho ha hc _ ih =>
    intro hs hopen l b ls hl hb hsb
    obtain ⟨s', said, hs'⟩ := ih (by simpa using hs) (by simpa using hopen) hl hb hsb
    exact ⟨_, by simpa using Says.call hn ho ha hc said, by simpa using hs'⟩
  | noStatements | nextStatement | emptyScript | ordinary | useFile | includeFile => trivial

/-- The tokens say something sealed of the same kind. -/
def SaysSealed : Passage → List Token → Prop
  | .statement _, ks => ∃ s, Says (.statement s) ks ∧ (Node.statement s).Sealed
  | .statements _, ks => ∃ ss, Says (.statements ss) ks ∧ ∀ s ∈ ss, (Node.statement s).Sealed
  | .script _, ks => ∃ ss, Says (.script ss) ks ∧ ∀ s ∈ ss, (Node.statement s).Sealed

/-- What tokens say, they say of something sealed. -/
theorem sealed_of_says {p : Passage} {ks : List Token} (h : Says p ks) : SaysSealed p ks := by
  induction h with
  | empty hk => exact ⟨_, .empty hk, by simp⟩
  | block ho _ hc ih =>
    obtain ⟨ss, said, hs⟩ := ih
    exact ⟨_, .block ho said hc, by simpa using hs⟩
  | moduleDefinition hm hn ho hp hc _ ih =>
    obtain ⟨s, said, hs⟩ := ih
    exact ⟨_, .moduleDefinition hm hn ho hp hc said, by simpa using hs⟩
  | functionDefinition hf hn ho hp hc ha he hz =>
    exact ⟨_, .functionDefinition hf hn ho hp hc ha he hz, by simp⟩
  | assignment hn ha he hz => exact ⟨_, .assignment hn ha he hz, by simp⟩
  | conditional hi ho he hc _ ih =>
    obtain ⟨s, said, hs⟩ := ih
    exact ⟨_, .conditional hi ho he hc said, by simpa using hs⟩
  | alternative hi ho he hc _ hl _ iha ihb =>
    obtain ⟨a, said, hs⟩ := iha
    obtain ⟨b, said', hs'⟩ := ihb
    by_cases hopen : a.EndsOpen
    · -- the `else` is taken by what the first branch ends in
      obtain ⟨s, said, hs⟩ := takesElse_of_says said hs hopen hl said' hs'
      exact ⟨_, .conditional hi ho he hc said, by simpa using hs⟩
    · exact ⟨_, .alternative hi ho he hc said hl said', Node.sealed_alternative.2 ⟨hs, hs', hopen⟩⟩
  | modified hk hm _ ih =>
    obtain ⟨s, said, hs⟩ := ih
    exact ⟨_, .modified hk hm said, by simpa using hs⟩
  | loop hf ho ha hc _ ih =>
    obtain ⟨s, said, hs⟩ := ih
    exact ⟨_, .loop hf ho ha hc said, by simpa using hs⟩
  | call hn ho ha hc _ ih =>
    obtain ⟨s, said, hs⟩ := ih
    exact ⟨_, .call hn ho ha hc said, by simpa using hs⟩
  | noStatements => exact ⟨[], .noStatements, by simp⟩
  | nextStatement _ _ ih ihs =>
    obtain ⟨s, said, hs⟩ := ih
    obtain ⟨ss, said', hs'⟩ := ihs
    exact ⟨_, .nextStatement said said', List.forall_mem_cons.2 ⟨hs, hs'⟩⟩
  | emptyScript => exact ⟨[], .emptyScript, by simp⟩
  | ordinary _ _ ih ihs =>
    obtain ⟨s, said, hs⟩ := ih
    obtain ⟨ss, said', hs'⟩ := ihs
    exact ⟨_, .ordinary said said', List.forall_mem_cons.2 ⟨hs, hs'⟩⟩
  | useFile hk _ ih =>
    obtain ⟨ss, said, hs⟩ := ih
    exact ⟨_, .useFile hk said, List.forall_mem_cons.2 ⟨by simp, hs⟩⟩
  | includeFile hk _ ih =>
    obtain ⟨ss, said, hs⟩ := ih
    exact ⟨_, .includeFile hk said, List.forall_mem_cons.2 ⟨by simp, hs⟩⟩

end SolidScript
