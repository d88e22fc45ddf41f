import SolidScript.Proofs.Phrase.Edge
import SolidScript.Proofs.Phrase.Nodes
import SolidScript.Proofs.Phrase.Reached
import SolidScript.Proofs.Phrase.Subtrees

/-!
# Scripts — where constructs stand

Every construct that is read starts at a character of the source that is not passed over between
tokens, and the text from there on spells it.  What stands in it starts there or later, and of two
constructs that stand directly in it the later one starts later.

A construct is built from a run of tokens and starts where the first of them does
(`Node.MadeOf`); so the order of places is that of tokens in a source (`pairwise_start_of_laid`).

* `Node.PlacedIn`: all of it.
* `placed_of_parseWith`: it holds of every construct that is read.
-/

namespace SolidScript
open Grammar
open Text (isBlank lit)

/-! ### Places -/

/-- The offset lies in what is passed over before, between or after the tokens of a source. -/
def PassedOver (source : Text) (ks : List Token) (o : Nat) : Prop :=
  ∃ ls ms there, ks = ls ++ ms ∧ Laid (.start source) ls there ∧ LaidToEnd there ms ∧
    there.offset ≤ o ∧ o < (afterSkip there).offset

/-- The text starts with what the construct starts with, if it does not start with another
construct. -/
def Node.SpelledAt : Node → Text → Prop
  | expr (.undef _), x         => lit "undef" <+: x
  | expr (.boolean _ b), x     => (if b then lit "true" else lit "false") <+: x
  | expr (.number _ v), x      =>
    ∃ u r, Terminal.number.reader x = some (u, r) ∧ Number.Numeral.value? u = some v
  | expr (.text _ t), x        => '"' :: (t ++ ['"']) <+: x
  | expr (.variable _ n), x | expr (.call _ n _), x => n <+: x
  | expr (.vector _ _), x | expr (.range _ _ _ _), x => ['['] <+: x
  | expr (.comprehension _ _ _ _), x => ['['] <+: x
  | expr (.unary _ o _), x     => o.text <+: x
  | expr (.led _ l _ _), x     => l.text <+: x
  | argument (.mk _ (some n) _), x => n <+: x
  | parameter p, x             => p.name <+: x
  | statement (.empty _), x    => [';'] <+: x
  | statement (.block _ _), x  => ['\x7b'] <+: x
  | statement (.moduleDefinition _ _ _ _), x   => lit "module" <+: x
  | statement (.functionDefinition _ _ _ _), x => lit "function" <+: x
  | statement (.assignment _ n _), x => n <+: x
  | statement (.call _ n _ _ none), x => n <+: x
  | statement (.loop _ _ _ none), x  => lit "for" <+: x
  | statement (.call _ _ _ _ (some m)), x | statement (.loop _ _ _ (some m)), x
  | statement (.modified _ m _), x   => m.text <+: x
  | statement (.conditional _ _ _ _), x => lit "if" <+: x
  | statement (.file _ k _), x => k.text <+: x
  | _, _ => True

/-- The first construct starts before the second. -/
def Node.Before (m n : Node) : Prop := ∃ o p, m.place = some o ∧ n.place = some p ∧ o < p

/-- The construct stands at the offset of a source with these tokens. -/
structure Node.PlacedIn (n : Node) (source : Text) (ks : List Token) (o : Nat) : Prop where
  place : n.place = some o
  inside : o < source.length
  notBlank : ∀ c ∈ source[o]?, isBlank c = false
  notPassed : ¬ PassedOver source ks o
  around : ∀ c ∈ n.children, ∃ p, c.place = some p ∧ o ≤ p
  ordered : n.children.Pairwise Node.Before
  spelled : n.SpelledAt (source.drop o)

/-! ### Tokens in order -/

variable {source : Text} {here next : Cursor} {ks ls : List Token} {k : Token}

/-- A token lies between the places before and after it. -/
theorem Grammar.Laid.start_mem (h : Laid here ks next) (hk : k ∈ ks) :
    (afterSkip here).offset ≤ k.start ∧ k.start < next.offset := by
  induction h with
  | nil => cases hk
  | @cons here there next l ls h hs ih =>
    obtain ⟨-, ne, start, stop⟩ := h.rest
    have := List.length_pos_iff.2 ne
    rcases List.mem_cons.1 hk with rfl | hk
    · have := hs.offset_le
      omega
    · have := ih hk
      obtain ⟨g, -, gap⟩ := exists_gap there
      omega

theorem pairwise_start_of_laid (h : Laid here ks next) : ks.Pairwise (·.start < ·.start) := by
  induction h with
  | nil => exact .nil
  | @cons here there next l ls h hs ih =>
    refine .cons (fun m hm => ?_) ih
    obtain ⟨-, ne, start, stop⟩ := h.rest
    have := List.length_pos_iff.2 ne
    have := hs.start_mem hm
    obtain ⟨g, -, gap⟩ := exists_gap there
    omega

/-- A token of a source, and the text of the source at it. -/
theorem Grammar.Laid.exists_drop (h : Laid here ks next) (hin : here.In source) (hk : k ∈ ks) :
    ∃ there after, At there k after ∧ source.drop k.start = (afterSkip there).rest := by
  induction h with
  | nil => cases hk
  | @cons here there next l ls h _ ih =>
    rcases List.mem_cons.1 hk with rfl | hk
    · obtain ⟨-, -, start, -⟩ := h.rest
      exact ⟨here, there, h, by rw [start]; exact (afterSkip_in hin).2.symm⟩
    · exact ih (h.inside hin) hk

/-- A token starts at a character of the source that is no blank. -/
theorem Grammar.Laid.getElem?_start (h : Laid (.start source) ks next) (hk : k ∈ ks) :
    ∃ c, source[k.start]? = some c ∧ isBlank c = false := by
  obtain ⟨there, after, hat, drop⟩ := h.exists_drop (Cursor.start_in source) hk
  obtain ⟨rest, begins, -⟩ := at_iff.1 hat
  obtain ⟨c, w, text, blank, -⟩ := begins.head
  refine ⟨c, ?_, blank⟩
  rw [← List.head?_drop, drop, rest, text]
  rfl

theorem not_passedOver_of_laid (h : LaidToEnd (.start source) ks) (hk : k ∈ ks) :
    ¬ PassedOver source ks k.start := by
  rintro ⟨ls, ms, there, rfl, laid, ⟨stop, rest, -⟩, lower, upper⟩
  rcases List.mem_append.1 hk with hk | hk
  · have := laid.start_mem hk
    omega
  · have := rest.start_mem hk
    omega

/-! ### Constructs in order -/

/-- Constructs that are spelled one after the other start one after the other, each at a token. -/
theorem Node.Along.ordered {ns : List Node} (h : Along ns ks)
    (hs : ks.Pairwise (·.start < ·.start)) :
    (∀ n ∈ ns, ∃ l ∈ ks, n.place = some l.start) ∧ ns.Pairwise Before := by
  induction h with
  | nil => exact ⟨nofun, .nil⟩
  | @cons us n ns ls ms h _ ih =>
    obtain ⟨-, later, -⟩ := List.pairwise_append.1 hs
    obtain ⟨-, rest, across⟩ := List.pairwise_append.1 later
    obtain ⟨starts, ordered⟩ := ih rest
    obtain ⟨k, vs, run, made⟩ := h.madeWithin
    have hk : k ∈ ls := run.subset List.mem_cons_self
    refine ⟨List.forall_mem_cons.2 ⟨⟨k, ?_, made.place⟩, fun m hm => ?_⟩,
      .cons (fun m hm => ?_) ordered⟩
    · exact List.mem_append_right _ (List.mem_append_left _ hk)
    · obtain ⟨l, hl, place⟩ := starts m hm
      exact ⟨l, List.mem_append_right _ (List.mem_append_right _ hl), place⟩
    · obtain ⟨l, hl, place⟩ := starts m hm
      exact ⟨_, _, made.place, place, across k hk l hl⟩

/-! ### The text of a construct -/

/-- What the first token shows stands in the text. -/
theorem Node.spelledAt_of_opens (h : At here k next) {n : Node} (ho : n.Opens k) :
    n.SpelledAt (afterSkip here).rest := by
  obtain ⟨rest, -⟩ := h.rest
  have spelled {t : Text} (ht : k.text = t) : t <+: (afterSkip here).rest :=
    ⟨next.rest, by rw [rest, ht]⟩
  have word {w : Keyword} (hw : k.IsWord w) : lit w.text <+: (afterSkip here).rest :=
    spelled hw.2
  have mark {m : Mark} (hm : k.IsMark m) : [m.char] <+: (afterSkip here).rest := spelled hm.2
  match n, ho with
  | expr (.undef _), ho => exact word ho
  | expr (.boolean _ true), ho => exact word ho
  | expr (.boolean _ false), ho => exact word ho
  | expr (.number _ _), ho => exact ⟨_, _, h.reads (by decide) ho.1, ho.2⟩
  | expr (.text _ t), ho =>
    have quoted := h.inner_of_string ho.1
    rw [ho.2] at quoted
    exact spelled quoted
  | expr (.variable _ _), ho | expr (.call _ _ _), ho | expr (.unary _ _ _), ho
  | argument (.mk _ (some _) _), ho | parameter _, ho | statement (.assignment _ _ _), ho
  | statement (.call _ _ _ _ none), ho | statement (.call _ _ _ _ (some _)), ho
  | statement (.loop _ _ _ (some _)), ho | statement (.modified _ _ _), ho => exact spelled ho.2
  | expr (.vector _ _), ho | expr (.range _ _ _ _), ho | expr (.comprehension _ _ _ _), ho
  | statement (.empty _), ho | statement (.block _ _), ho => exact mark ho
  | expr (.led _ l _ _), ho => cases l <;> exact word ho
  | statement (.moduleDefinition _ _ _ _), ho | statement (.functionDefinition _ _ _ _), ho
  | statement (.loop _ _ _ none), ho | statement (.conditional _ _ _ _), ho => exact word ho
  | expr (.member _ _ _), _ | expr (.index _ _ _), _ | expr (.binary _ _ _ _), _
  | expr (.ternary _ _ _ _), _ | argument (.mk _ none _), _ => trivial

/-! ### What is read -/

/-- A construct that starts where a token of the source does stands in the source. -/
theorem Node.placedIn_of_token (hl : LaidToEnd (.start source) ks) (hk : k ∈ ks) {n : Node}
    (place : n.place = some k.start) (around : ∀ c ∈ n.children, ∃ p, c.place = some p ∧ k.start ≤ p)
    (ordered : n.children.Pairwise Before)
    (spelled : ∀ {here next : Cursor}, At here k next → n.SpelledAt (afterSkip here).rest) :
    n.PlacedIn source ks k.start := by
  obtain ⟨stop, laid, -⟩ := id hl
  obtain ⟨c, char, blank⟩ := laid.getElem?_start hk
  obtain ⟨there, after, hat, drop⟩ := laid.exists_drop (Cursor.start_in source) hk
  refine ⟨place, (List.getElem?_eq_some_iff.1 char).1, ?_, not_passedOver_of_laid hl hk, around,
    ordered, drop ▸ spelled hat⟩
  rw [char]
  rintro _ ⟨⟩
  exact blank

/-- What is built from tokens of a source stands in the source. -/
theorem Node.MadeOf.placedIn (hl : LaidToEnd (.start source) ks) {n : Node}
    (h : n.MadeOf k ls) (run : (k :: ls) <:+: ks) : n.PlacedIn source ks k.start := by
  obtain ⟨stop, laid, -⟩ := id hl
  have sorted := (pairwise_start_of_laid laid).sublist run.sublist
  obtain ⟨starts, ordered⟩ := h.children.ordered sorted
  refine placedIn_of_token hl (run.subset List.mem_cons_self) h.place (fun m hm => ?_) ordered
    fun hat => spelledAt_of_opens hat h.opens
  obtain ⟨l, hl, place⟩ := starts m hm
  refine ⟨l.start, place, ?_⟩
  rcases List.mem_cons.1 hl with rfl | hl
  · exact Nat.le_refl _
  · exact ((List.pairwise_cons.1 sorted).1 l hl).le

/-- A reference to a file stands in the source. -/
theorem Node.RefersBy.placedIn (hl : LaidToEnd (.start source) ks) {n : Node} (h : n.RefersBy k)
    (hk : k ∈ ks) : n.PlacedIn source ks k.start := by
  have word {t : Terminal} {w : Text} (ht : isFaithful t = true) (hw : t.reader = Lexeme.reference w)
      (ha : t.Accepts k) {here next : Cursor} (hat : At here k next) :
      w <+: (afterSkip here).rest := by
    have reads := hat.reads ht ha
    rw [hw] at reads
    obtain ⟨b, p, text, rest, -⟩ := Lexeme.reference_eq_some_iff.1 reads
    rw [rest, text]
    exact ⟨_, (List.append_assoc ..).symm⟩
  rcases h with ⟨ha, rfl⟩ | ⟨ha, rfl⟩
  · exact placedIn_of_token hl hk rfl nofun .nil fun hat => word (by decide) rfl ha hat
  · exact placedIn_of_token hl hk rfl nofun .nil fun hat => word (by decide) rfl ha hat

namespace Script

/-- Every construct that is read from a source stands in it, among the tokens that spell what is
read: at a character that is neither blank nor in a comment, before what stands in it, one construct
in it before the next, and the text there starts the way the construct does. -/
theorem placed_of_parseWith {settings : Settings} {s : Script}
    (h : parseWith settings source = .ok s) :
    ∃ ks, LaidToEnd (.start source) ks ∧ Says (.script s) ks ∧
      ∀ n, s.Holds n → ∃ o, n.PlacedIn source ks o := by
  obtain ⟨ks, laid, said, -⟩ := says_of_parseWith h
  refine ⟨ks, laid, said, ?_⟩
  rintro n ⟨t, ht, w⟩
  rcases said.node_cases ht w with ⟨ls, run, spelt⟩ | ⟨-, k, hk, refers⟩
  · obtain ⟨k, ms, run, made⟩ := spelt.madeWithin.mono run
    exact ⟨k.start, made.placedIn laid run⟩
  · exact ⟨k.start, refers.placedIn laid hk⟩

/-- A source with a comment before a call whose modifier stands apart from it, and with an argument
in parentheses. -/
theorem placed_of_parseWith_comment :
    ∃ s, parseWith ⟨100, false⟩ (lit "/* */ # a((1)+2);") = .ok s ∧
      ∀ n, s.Holds n → ∃ ks o, n.PlacedIn (lit "/* */ # a((1)+2);") ks o := by
  have accepted : (match parseWith ⟨100, false⟩ (lit "/* */ # a((1)+2);") with
      | .ok _ => true
      | .error _ => false) = true := by decide +kernel
  split at accepted
  · rename_i s h
    obtain ⟨ks, -, -, placed⟩ := placed_of_parseWith h
    exact ⟨s, h, fun n hn => ⟨ks, placed n hn⟩⟩
  · cases accepted

end Script

end SolidScript
