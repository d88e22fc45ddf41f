import SolidScript.Proofs.Expected
import SolidScript.Proofs.Phrase.Flow

/-!
# Scripts — the character or what is missed

Of a source that is refused one of two things is reported: a character that starts no token, or what
is missed at the furthest place that was reached.  A lexer that reads the source from its start
decides which.  It comes to that place by the same tokens as the grammar, and so the character is
reported exactly where a lexer that is put there is stuck.

For this the lexer must read no reference to a file where the grammar reads a comparison: in
`use < "a > b` it reads `use < "a >`, and behind it a name, and the quote that the grammar stops
at is never looked at.

* `reportsAt_of_parseWith`: what is reported lies at the furthest place, and is the character there
  exactly if no token starts with it.
-/

namespace SolidScript

namespace Grammar

variable {source : Text}

theorem Edge.offset_le {here : Cursor} {p : Nat} (h : Edge source here p) : here.offset ≤ p := by
  cases h with
  | behind =>
    obtain ⟨g, -, ho⟩ := exists_gap here
    omega
  | inside le => exact le

/-- From there a lexer finds the fault that there is at the offset, and no other. -/
theorem Edge.faultBefore_eq_some_iff {here : Cursor} {p : Nat} (h : Edge source here p)
    (hin : here.In source) (n : Nat) {bad : Unexpected} :
    faultBefore p (n + 1) here = some bad ↔ bad.offset = p ∧ StuckAt source p bad.char := by
  unfold faultBefore
  cases h with
  | behind =>
    have inside := afterSkip_in hin
    rw [stuckAt_iff, ← inside.ext (Cursor.within_in inside.1) rfl, next_afterSkip]
    cases hn : Token.next here with
    | done there => simp
    | token k next =>
      obtain ⟨-, hk, start, -⟩ := rest_of_next hn
      have := List.length_pos_iff.2 hk
      have stop : (afterSkip here).offset < k.stop := by
        unfold Token.stop
        omega
      simp [stop]
    | stuck there c =>
      obtain ⟨o, d⟩ := bad
      simp only [Option.some.injEq, Unexpected.mk.injEq, Token.Step.stuck.injEq]
      constructor
      · rintro ⟨rfl, rfl⟩
        rw [eq_of_next_stuck hn]
        exact ⟨rfl, _, ⟨rfl, rfl⟩, rfl⟩
      · rintro ⟨rfl, there', ⟨rfl, rfl⟩, he⟩
        exact ⟨he, rfl⟩
  | inside _ token stop _ free => simp [token, stop, free]

end Grammar

namespace Script
open Grammar

/-- A lexer that goes on from the place reads the token. -/
inductive Meets : Cursor → Token → Prop where
  | next {here there : Cursor} {k : Token} (h : Token.next here = .token k there) : Meets here k
  | later {here there : Cursor} {k l : Token} (h : Token.next here = .token k there)
      (m : Meets there l) : Meets here l

/-- Before the offset a lexer reads no reference to a file where a name can be compared. -/
def PlainBefore (source : Text) (p : Nat) : Prop :=
  ∀ k, Meets (.start source) k → k.IsReference → k.start < p →
    ¬ GoesOn source k.start (Text.lit "a\n<")

/-- What is reported lies at the offset, and is the character there exactly if a lexer that is put
there is stuck at it; otherwise it is no fault of the lexer's. -/
structure ReportsAt (source : Text) (p : Nat) (f : Failure) : Prop where
  offset : f.offset = p
  unexpected : ∀ c, f.cause = .unexpected c ↔ StuckAt source p c
  kind : f.cause.kind = .lexical ∨ f.cause.kind = .grammatical

variable {source : Text} {p : Nat}

/-- What a lexer reads that goes on behind a token: the token, or what it reads behind it. -/
theorem Meets.of_next {here there : Cursor} {k l : Token} (h : Token.next here = .token k there)
    (m : Meets here l) : l = k ∨ Meets there l := by
  cases m with
  | next h' =>
    rw [h] at h'
    cases h'
    exact .inl rfl
  | later h' m =>
    rw [h] at h'
    cases h'
    exact .inr m

theorem Meets.onto {here there : Cursor} {k l : Token} (h : Token.next here = .token k there)
    (m : ∀ l, Meets here l → Meets (.start source) l) (hl : Meets there l) :
    Meets (.start source) l := m l (.later h hl)

/-- Where a name is compared in a document, the source can go on with a name and a comparison. -/
theorem goesOn_of_name {pre post : List Token} {k l : Token} {here : Cursor}
    (h : Laid (.start source) pre here) (hd : IsDocument (pre ++ k :: l :: post)) (hk : k.IsName)
    {x : Text} (hl : l.text = '<' :: x) (alone : ∀ m ∈ l :: post, m.Alone) :
    GoesOn source (afterSkip here).offset (Text.lit "a\n<") := by
  have name : Token.Alone ⟨.identifier, ['a'], 0⟩ := .plain (by decide)
  have first := at_of_alone name (l :: post) (g := []) (.nil _) 0
  obtain ⟨ls, rest, shapes⟩ := laidToEnd_written alone 1
  have whole : ['a'] ++ written (l :: post) = Text.lit "a\n<" ++ (x ++ written post) := by
    simp [written, hl, Text.lit]
  have laid : LaidToEnd (.start (Text.lit "a\n<" ++ (x ++ written post)))
      (⟨.identifier, ['a'], 0⟩ :: ls) := by
    rw [← whole]
    exact laidToEnd_cons_iff.2 ⟨_, first, rest⟩
  refine goesOn_of_reached (.laid h) (isDocument_of_name hd hk ['a']) (.inr rfl) laid ?_
  rw [List.map_cons, List.map_cons, shapes]

/-- The tokens before the place are those that a lexer reads, or it reads a reference over it. -/
theorem faultBefore_eq_some_iff (plain : PlainBefore source p) {ms : List Token}
    (alone : ∀ m ∈ ms, m.Alone) {there : Cursor} (edge : Edge source there p) {bad : Unexpected} :
    ∀ {ks pre : List Token} {here : Cursor} {n : Nat}, Laid (.start source) pre here →
      Laid here ks there → IsDocument (pre ++ (ks ++ ms)) →
      (∀ k, Meets here k → Meets (.start source) k) → here.rest.length < n →
      (faultBefore p n here = some bad ↔ bad.offset = p ∧ StuckAt source p bad.char)
  | _, _, _, 0, _, _, _, _, hn => by omega
  | [], pre, here, n + 1, hpre, hks, _, _, _ => by
    obtain rfl := laid_nil_iff.1 hks
    exact edge.faultBefore_eq_some_iff ((Reached.laid hpre).inside (Cursor.start_in source)) n
  | k :: ks, pre, here, n + 1, hpre, hks, hd, meets, hn => by
    obtain ⟨mid, hat, hks⟩ := laid_cons_iff.1 hks
    have le := hks.offset_le.trans edge.offset_le
    obtain ⟨-, hk, start, stop⟩ := hat.rest
    unfold faultBefore
    rcases hat.next_or_reference with next | ⟨name, r, after, x, next, reference, hr, hx, past⟩
    · have shorter := hat.length_lt
      have before : ¬ p < k.stop := by
        unfold Token.stop
        omega
      rw [next]
      simp only [before, if_false]
      have front : Laid (.start source) (pre ++ [k]) mid := hpre.append (.cons hat (.nil _))
      exact faultBefore_eq_some_iff plain alone edge front hks (by simpa using hd)
        (fun _ => Meets.onto next meets) (by omega)
    · rw [next]
      cases ks with
      | nil =>
        -- the place is the one after the name, and the reference reaches over it
        obtain rfl := laid_nil_iff.1 hks
        have := (Reached.laid (hpre.append (.cons hat (.nil _)))).inside (Cursor.start_in source)
        cases edge with
        | behind =>
          obtain ⟨l, last, token, -⟩ := exists_next_of_symbol hx (.inr rfl)
          rw [← next_afterSkip] at token
          have free := not_stuckAt_of_next (afterSkip_in this) token
          simp [past, free]
        | inside _ _ _ other => simp [hx] at other
      | cons l ks =>
        -- the reference is one where a comparison can stand
        obtain ⟨_, hatl, -⟩ := laid_cons_iff.1 hks
        obtain ⟨whole, hl, -, -⟩ := hatl.rest
        obtain ⟨c, y, text⟩ := List.exists_cons_of_ne_nil hl
        obtain rfl : '<' = c := by
          rw [hx, text] at whole
          exact (List.cons.inj whole).1
        have inside : r.start < p := by
          have := List.length_pos_iff.2 hk
          omega
        have others : ∀ m ∈ l :: (ks ++ ms), m.Alone := by
          rw [← List.cons_append, List.forall_mem_append]
          refine ⟨fun m hm => ?_, alone⟩
          obtain ⟨_, _, hatm⟩ := hks.exists_at hm
          exact hatm.alone
        refine absurd ?_ (plain r (meets r (.next next)) reference inside)
        rw [hr, start]
        exact goesOn_of_name hpre hd name text others

/-- A document that is matched is read. -/
theorem exists_script_of_accepted {settings : Settings} {tree : Tree}
    (h : judge settings source = .accepted tree) : ∃ s, OfTree.script? tree = some s := by
  obtain ⟨next, ho⟩ := judge_eq_accepted h
  obtain ⟨us, there, hm, -, -, ht⟩ := document_eq_some_iff.1 ho
  obtain ⟨-, -, -, p, vs, ss, rfl, hr, -⟩ := outcome_means (by decide) hm
  cases ht
  exact ⟨ss, hr⟩

/-- What is reported of a source that is refused lies at the furthest place that was reached, if no
reference to a file is read before it where a name can be compared: the character there if no token
starts with it, and otherwise what is missed. -/
theorem reportsAt_of_parseWith {settings : Settings} {f : Failure}
    (h : parseWith settings source = .error f) (shallow : f.cause ≠ .tooDeep) :
    ∃ furthest, judge settings source = .refused furthest ∧
      (PlainBefore source furthest.offset → ReportsAt source furthest.offset f) := by
  unfold parseWith at h
  split at h
  · cases h
    exact absurd rfl shallow
  · rename_i furthest hj
    refine ⟨furthest, hj, fun plain => ?_⟩
    cases h
    obtain ⟨ks, ms, there, laid, document, alone, edge⟩ := edge_of_ends (ends_of_refused hj)
    have fault (bad : Unexpected) := @faultBefore_eq_some_iff _ _ plain _ alone _ edge bad _ _ _ _
      (.nil _) laid document (fun _ => id) (Nat.lt_succ_self source.length)
    unfold explain
    split <;> rename_i hf
    · obtain ⟨offset, stuck⟩ := (fault _).1 hf
      refine ⟨offset, fun c => ⟨fun hc => ?_, fun hc => ?_⟩, .inl rfl⟩
      · cases hc
        exact stuck
      · rw [stuck.unique hc]
    · refine ⟨rfl, fun c => ⟨nofun, fun hc => ?_⟩, .inr rfl⟩
      have := (fault ⟨furthest.offset, c⟩).2 ⟨rfl, hc⟩
      rw [hf] at this
      cases this
  · rename_i tree hj
    obtain ⟨s, hs⟩ := exists_script_of_accepted hj
    rw [hs] at h
    cases h

/-- A name at the start of a source is followed by a token that may follow one there, and `<` is
none: a reference that a source starts with hides no comparison. -/
theorem not_goesOn_start (source : Text) : ¬ GoesOn source 0 (Text.lit "a\n<") := by
  rintro ⟨c, s, -, depth, read⟩
  rw [List.take_zero, List.nil_append] at read
  obtain ⟨ks, hl, said, -⟩ := says_of_parseWith (read ⟨depth + 1, true⟩ (Nat.lt_succ_self depth))
  have name : Token.next (.start ('\n' :: (Text.lit "a\n<" ++ c))) =
    .token ⟨.identifier, ['a'], 1⟩ ⟨2, '\n' :: '<' :: c⟩ := rfl
  cases ks with
  | nil =>
    obtain ⟨_, laid, done⟩ := hl
    obtain rfl := laid_nil_iff.1 laid
    cases done
  | cons k ks =>
    obtain ⟨mid, hat, last, laid, -⟩ := laidToEnd_cons_iff.1 hl
    obtain ⟨rfl, rfl⟩ : ⟨.identifier, ['a'], 1⟩ = k ∧ ⟨2, '\n' :: '<' :: c⟩ = mid := by
      rcases hat.next_or_reference with same | ⟨-, r, _, _, other, reference, -⟩
      · rw [name] at same
        cases same
        exact ⟨rfl, rfl⟩
      · rw [name] at other
        cases other
        exact reference.elim nofun nofun
    obtain ⟨l, hl, opens⟩ := said.steady.2.1 trivial rfl
    obtain ⟨ls, rfl⟩ := List.head?_eq_some_iff.1 hl
    obtain ⟨there, hat, -⟩ := laid_cons_iff.1 laid
    have first : '<' :: c = l.text ++ there.rest := hat.rest.1
    rcases opens with mark | mark <;> (rw [mark.2] at first; cases first)

/-- The character in place of an expression is reported, behind a reference. -/
theorem reportsAt_of_parseWith_reference :
    ReportsAt (Text.lit "use <m>a=@;") 9 ⟨.unexpected '@', 9⟩ := by
  have refused : (match parse (Text.lit "use <m>a=@;"),
        judge settings (Text.lit "use <m>a=@;") with
      | .error f, .refused g => decide (f = ⟨.unexpected '@', 9⟩) && decide (g.offset = 9)
      | _, _ => false) = true := by decide +kernel
  split at refused
  · rename_i f g hf hg
    simp only [Bool.and_eq_true, decide_eq_true_eq] at refused
    obtain ⟨rfl, offset⟩ := refused
    obtain ⟨furthest, hj, reports⟩ := reportsAt_of_parseWith hf (by decide)
    obtain rfl : furthest = g := by
      rw [hg] at hj
      cases hj
      rfl
    rw [offset] at reports
    refine reports fun k meets reference => ?_
    -- the lexer reads the reference, a name and a symbol before it is stuck
    have first : Token.next (.start (Text.lit "use <m>a=@;")) =
      .token ⟨.useFile, Text.lit "use <m>", 0⟩ ⟨7, Text.lit "a=@;"⟩ := rfl
    have name : Token.next ⟨7, Text.lit "a=@;"⟩ =
      .token ⟨.identifier, ['a'], 7⟩ ⟨8, ['=', '@', ';']⟩ := rfl
    have symbol : Token.next ⟨8, ['=', '@', ';']⟩ =
      .token ⟨.symbol, ['='], 8⟩ ⟨9, ['@', ';']⟩ := rfl
    have stuck : Token.next ⟨9, ['@', ';']⟩ = .stuck ⟨9, ['@', ';']⟩ '@' := rfl
    rcases meets.of_next first with rfl | meets
    · exact fun _ => not_goesOn_start _
    rcases meets.of_next name with rfl | meets
    · exact reference.elim nofun nofun
    rcases meets.of_next symbol with rfl | meets
    · exact reference.elim nofun nofun
    cases meets with
    | next h | later h => rw [stuck] at h; cases h
  · cases refused

/-- A source in which a lexer reads a reference where the grammar reads a comparison with a
string. -/
def overread : Text :=
  Text.lit "x = use < " ++ '"' :: Text.lit "a > @" ++ '"' :: Text.lit " + ;"

/-- The character behind the reference is reported, inside the string that the grammar has read. -/
theorem not_reportsAt_overread :
    parse overread = .error ⟨.unexpected '@', 15⟩ ∧
      ∃ furthest, judge settings overread = .refused furthest ∧ furthest.offset = 20 ∧
        ¬ ReportsAt overread furthest.offset ⟨.unexpected '@', 15⟩ := by
  have refused : (match parse overread, judge settings overread with
      | .error f, .refused g => decide (f = ⟨.unexpected '@', 15⟩) && decide (g.offset = 20)
      | _, _ => false) = true := by decide +kernel
  split at refused
  · rename_i f g hf hg
    simp only [Bool.and_eq_true, decide_eq_true_eq] at refused
    obtain ⟨rfl, offset⟩ := refused
    refine ⟨hf, g, hg, offset, fun reports => ?_⟩
    have := reports.offset
    rw [offset] at this
    cases this
  · cases refused

end Script

end SolidScript
