import SolidScript.Proofs.Phrase.Joined

/-!
# Scripts — one source after another

Sources that are read can be put together, with a line feed between them: what comes out is the
statements of the first as they are and then those of the second, at places that are moved behind
the first and the line feed.

Nothing that is left open at the end of the first source is closed by the second one, so the same is
tried in the first as if it stood alone (`mirror_tried`), and then the same as in the second
(`mirror_moved`).  With it the depth stays: two sources for which it suffices are not too deep
together.

* `compose_parseWith`: sources that are read are read together, with the same settings.
-/

namespace SolidScript.Grammar

variable {source x : Text} {stop : Cursor} {ls : List Token} {ts : Script}

/-! ### The first source -/

/-- Attempts at the statements of a source stay in step when another source follows.  Where the
statements end nothing is known yet. -/
theorem mirror_tried (hend : (afterSkip stop).rest = []) (hx : LaidToEnd (.start x) ls)
    (said : Says (.script ts) ls) :
    Mirror source (source ++ '\n' :: x) (Tried stop) (Joined source x)
      (Tables source (source ++ '\n' :: x) (Joined source x) (stop.offset ≤ ·)) := by
  refine mirror_of_same ?_ ?_ ?_ ?_ ?_ ?_
  · rintro a _ ⟨hin, rfl⟩
    exact ⟨hin, hin.joined x⟩
  · rintro a _ b _ ⟨-, rfl⟩ ⟨-, rfl⟩
    exact Iff.rfl
  · rintro r a p there ⟨here, standing, hne, visits⟩ enters
    exact ⟨here, standing, hne, visits.enter enters⟩
  · exact fun h hj => same_of_tried h hj hend hx said
  · exact fun h hr hj => ahead_of_tried h hr hj hend hx said
  · rintro r a _ h ⟨-, rfl⟩
    have lt := offset_lt_of_tried h hend hx said
    exact Nat.not_le_of_lt lt

/-- If the statements of the first source are matched, they are where another source follows, and
what remains is to match from where they end. -/
theorem again_joined (hend : (afterSkip stop).rest = []) (hx : LaidToEnd (.start x) ls)
    (said : Says (.script ts) ls) (remember : Bool) (depth : Nat) :
    ∀ {budget budget' : Text} {here : Cursor} {s s' : State}, Standing stop here → here.In source →
      Tables source (source ++ '\n' :: x) (Joined source x) (stop.offset ≤ ·) s s' →
      here.rest.length ≤ budget.length → (here.joined x).rest.length ≤ budget'.length →
      again (attempt remember depth) [.rule .topStatement] budget here s ≠ .tooDeep →
      ∃ us t t' last, Tables source (source ++ '\n' :: x) (Joined source x) (stop.offset ≤ ·) t t' ∧
        (stop.joined x).rest.length ≤ last.length ∧
        again (attempt remember depth) [.rule .topStatement] budget' (here.joined x) s' =
          (again (attempt remember depth) [.rule .topStatement] last (stop.joined x) t').after us
  | budget, budget', here, s, s', standing, hin, hs, hb, hb', hok => by
    by_cases hne : here = stop
    · subst hne
      exact ⟨[], s, s', budget', hs, hb', (Reply.after_nil _).symm⟩
    obtain ⟨us, next, top, -, standing'⟩ := standing.step hend hne
    have mirror := @mirror_tried source _ _ _ _ hend hx said
    have step := mirror.attempt remember depth ⟨here, standing, hne, .start⟩ ⟨hin, rfl⟩ hs
    have answer := answers_attempt remember depth (.rule .topStatement) here s hin hs.truthful
    obtain ⟨us, us', there, _, t, t', hr, hr', ⟨hin', rfl⟩, hs'⟩ | ⟨t, _, hr, -, -⟩ | ⟨hr, -⟩ :=
      step.cases
    · rw [hr] at answer
      cases top.symm.trans answer.1
      have shorter := (outcome_shrinks _ _ _ _ top).2 rfl
      have shorter' : (next.joined x).rest.length < (here.joined x).rest.length := by
        simp only [Cursor.joined, List.length_append]
        omega
      cases budget with
      | nil => rw [List.length_nil] at hb; omega
      | cons c budget =>
        cases budget' with
        | nil => rw [List.length_nil] at hb'; omega
        | cons c' budget' =>
          rw [List.length_cons] at hb hb'
          rw [again_of_matched hr] at hok
          have enough : next.rest.length ≤ budget.length := by omega
          have enough' : (next.joined x).rest.length ≤ budget'.length := by omega
          obtain ⟨vs, u, u', last, hu, hl, he⟩ := again_joined hend hx said remember depth
            standing' hin' hs' enough enough' fun h => hok (by rw [h]; rfl)
          refine ⟨us' ++ vs, u, u', last, hu, hl, ?_⟩
          rw [again_of_matched hr', he, Reply.after_after]
    · rw [hr] at answer
      exact absurd (top.symm.trans answer.1) (by simp)
    · exact absurd (again_of_tooDeep hr) hok

/-! ### The second source -/

/-- A place in the second source, and the same place behind the first: the start is where the
statements of the first end. -/
def Behind (source x : Text) (stop a b : Cursor) : Prop :=
  a.In x ∧ b.In (source ++ '\n' :: x) ∧
    (0 < a.offset ∧ b.offset = a.offset + (source.length + 1) ∨ a.offset = 0 ∧ b = stop.joined x)

theorem moved_in {a : Cursor} (h : a.In x) (source : Text) :
    (a.moved (source.length + 1)).In (source ++ '\n' :: x) := by
  obtain ⟨ho, hr⟩ := h
  refine ⟨?_, ?_⟩
  · change a.offset + (source.length + 1) ≤ _
    rw [List.length_append, List.length_cons]
    omega
  · change a.rest = (source ++ '\n' :: x).drop (a.offset + (source.length + 1))
    have past : source.length ≤ a.offset + (source.length + 1) := by omega
    have rest : a.offset + (source.length + 1) - source.length = a.offset + 1 := by omega
    rw [List.drop_append, List.drop_eq_nil_of_le past, rest, List.drop_succ_cons, hr,
      List.nil_append]

/-- What is skipped behind the first source is what is skipped in the second. -/
theorem Behind.afterSkip_eq {a b : Cursor} (h : Behind source x stop a b) (hstop : stop.In source)
    (hend : (afterSkip stop).rest = []) :
    afterSkip b = (afterSkip a).moved (source.length + 1) := by
  obtain ⟨ha, hb, ⟨-, ho⟩ | ⟨ho, rfl⟩⟩ := h
  · rw [hb.ext (moved_in ha source) ho, afterSkip_moved]
  · obtain ⟨o, r⟩ := a
    obtain rfl : o = 0 := ho
    obtain rfl : r = x := ha.2
    obtain ⟨g, hg, -⟩ := exists_gap stop
    obtain ⟨whole, isGap, -⟩ := gap_eq_some_iff.1 hg
    rw [hend, List.append_nil] at whole
    rw [hend, ← whole] at isGap
    have length : stop.offset + stop.rest.length = source.length := by
      have := hstop.1
      rw [hstop.2, List.length_drop]
      omega
    rw [Cursor.joined, afterSkip_append_newline isGap, length, ← afterSkip_moved, Cursor.moved]
    simp

/-- A terminal that takes something does behind the first source what it does in the second. -/
theorem same_of_behind {t : Terminal} (ht : t ≠ .endOfInput) {a b : Cursor}
    (h : Behind source x stop a b) (hstop : stop.In source) (hend : (afterSkip stop).rest = []) :
    SameTerminal (Behind source x stop) t a b := by
  have inside := afterSkip_in h.1
  rw [SameTerminal, Run.terminal, Run.terminal, h.afterSkip_eq hstop hend]
  cases hr : (afterSkip a).read t.reader with
  | none =>
    have none := Option.map_eq_none_iff.1 hr
    simp [Cursor.read, Cursor.moved, none]
  | some o =>
    obtain ⟨u, next⟩ := o
    have hin := Cursor.read_in t.splits_reader inside hr
    obtain ⟨⟨v, r⟩, hv, he⟩ := Option.map_eq_some_iff.1 hr
    cases he
    have taken := List.length_pos_iff.2 ((Terminal.takes_reader ht).ne_nil hv)
    have moved := moved_in hin source
    have offset : (afterSkip a).offset + (source.length + 1) + u.length =
        (afterSkip a).offset + u.length + (source.length + 1) := by omega
    simp only [Cursor.read, Cursor.moved, hv, Option.map_some, offset] at moved ⊢
    refine .some ⟨hin, moved, .inl ⟨?_, rfl⟩⟩
    change 0 < (afterSkip a).offset + u.length
    omega

/-- Attempts in the second source stay in step behind the first. -/
theorem mirror_behind (hstop : stop.In source) (hend : (afterSkip stop).rest = []) :
    Mirror x (source ++ '\n' :: x) (fun p _ => isInner p = true) (Behind source x stop)
      (Tables x (source ++ '\n' :: x) (Behind source x stop) fun _ => False) := by
  refine mirror_of_same ?_ ?_ ?_ ?_ ?_ ?_
  · exact fun h => ⟨h.1, h.2.1⟩
  · rintro a b c d ⟨-, -, h⟩ ⟨-, -, k⟩
    have bound := hstop.1
    have start : (stop.joined x).offset = stop.offset := rfl
    rcases h with h | ⟨h, rfl⟩ <;> rcases k with k | ⟨k, rfl⟩ <;> omega
  · intro r a p there hr enters
    exact isInner_of_mem_pieces (by simpa [isInner] using hr) p (mem_pieces_of_enters enters)
  · exact fun ht h => same_of_behind (by simpa [isInner] using ht) h hstop hend
  · intro r t a b hr hq h
    refine same_of_behind ?_ h hstop hend
    rintro rfl
    cases r <;> cases hq
  · exact fun _ _ h => h

/-! ### Both -/

/-- If neither source is too deep, they are not too deep one after the other. -/
theorem judge_joined_ne_tooDeep {settings : Settings} {ks : List Token} {ss : Script}
    (h : judge settings source ≠ .tooDeep) (h' : judge settings x ≠ .tooDeep)
    (hl : LaidToEnd (.start source) ks) (said : Says (.script ss) ks)
    (sealed : ∀ s ∈ ss, (Node.statement s).Sealed) (apart : ks.IsChain Token.Apart)
    (hx : LaidToEnd (.start x) ls) (said' : Says (.script ts) ls) :
    judge settings (source ++ '\n' :: x) ≠ .tooDeep := by
  obtain ⟨depth, remember⟩ := settings
  rw [Ne, judge_eq_tooDeep_iff, not_or] at h h' ⊢
  obtain ⟨stop, hl, hend⟩ := hl
  refine ⟨h.1, fun deep => ?_⟩
  have standing : Standing stop (.start source) := ⟨ks, ss, hl, said, sealed, apart⟩
  have hstop := (Reached.laid hl).inside (Cursor.start_in source)
  have empty : Tables source (source ++ '\n' :: x) (Joined source x) (stop.offset ≤ ·)
      (.start source) (.start (source ++ '\n' :: x)) :=
    .afresh (Table.truthful_empty _) (fun _ _ _ _ => Table.find?_empty _ _)
      fun _ _ _ => Table.find?_empty _ _
  have whole : ((Cursor.start source).joined x).rest.length ≤ (source ++ '\n' :: x).length :=
    Nat.le_refl _
  obtain ⟨us, t, t', last, tables, enough, loop⟩ := again_joined hend hx said' remember (depth - 2)
    standing (Cursor.start_in source) empty (Nat.le_refl _) whole h.2
  have behind : Behind source x stop (.start x) (stop.joined x) :=
    ⟨Cursor.start_in x, hstop.joined x, .inr ⟨rfl, rfl⟩⟩
  have afresh : Tables x (source ++ '\n' :: x) (Behind source x stop) (fun _ => False)
      (.start x) t' := by
    refine .afresh tables.truthful' (fun r a b hab => tables.free r ?_) fun _ _ h => h.elim
    have bound := hstop.1
    obtain ⟨-, -, h | ⟨-, rfl⟩⟩ := hab
    · omega
    · exact Nat.le_refl _
  have mirror := mirror_behind (x := x) hstop hend
  have top {before after : List Piece} {p : Piece}
      (he : [Piece.rule .topStatement] = before ++ p :: after) : isInner p = true := by
    have mem : p ∈ [Piece.rule .topStatement] := he ▸ List.mem_append_right _ List.mem_cons_self
    obtain rfl := List.mem_singleton.1 mem
    rfl
  have step := (mirror.attempt remember (depth - 2)).again mirror (answers_attempt _ _)
    (answers_attempt _ _) rfl (Nat.le_refl x.length) enough
    (fun _ _ _ _ _ _ he _ => top he) behind afresh
  replace deep := loop.symm.trans deep
  obtain ⟨_, _, _, _, _, _, -, hr, -, -⟩ | ⟨_, _, -, hr, -⟩ | ⟨hr, -⟩ := step.cases
  · rw [hr] at deep
    cases deep
  · rw [hr] at deep
    cases deep
  · exact h'.2 hr

end SolidScript.Grammar

namespace SolidScript.Script
open Grammar

theorem judge_ne_tooDeep_of_parseWith {settings : Settings} {source : Text} {s : Script}
    (h : parseWith settings source = .ok s) : judge settings source ≠ .tooDeep := fun hj => by
  rw [parseWith, hj] at h
  cases h

/-- Sources that are read with some settings are read with them one after the other, with a line
feed in between: as the statements of the first and then those of the second, which are moved. -/
theorem compose_parseWith {settings : Settings} {first second : Text} {s t : Script}
    (h : parseWith settings first = .ok s) (h' : parseWith settings second = .ok t) :
    parseWith settings (first ++ '\n' :: second) = .ok (s ++ t.moved (first.length + 1)) := by
  obtain ⟨ks, laid, said, document⟩ := says_of_parseWith h
  obtain ⟨ls, laid', said', -⟩ := says_of_parseWith h'
  have sealed := sealed_of_parseWith h
  have apart := isChain_apart_of_isDocument document
  have shallow := judge_joined_ne_tooDeep (judge_ne_tooDeep_of_parseWith h)
    (judge_ne_tooDeep_of_parseWith h') laid said sealed apart laid' said'
  obtain ⟨stop, hl, hend⟩ := laid
  obtain ⟨ms, both, saidBoth⟩ := says_joined hl said apart hend laid' said'
  have offset : (Cursor.start first).offset + (Cursor.start first).rest.length + 1 =
      first.length + 1 := by simp [Cursor.start]
  rw [offset] at saidBoth
  have sealedBoth : ∀ u ∈ s ++ t.moved (first.length + 1), (Node.statement u).Sealed := by
    refine List.forall_mem_append.2 ⟨sealed, ?_⟩
    rw [Script.moved, Node.sealed_mapPlacesList]
    exact sealed_of_parseWith h'
  have read := parseWith_of_says settings saidBoth sealedBoth both
  exact read.resolve_right fun deep => shallow deep.1

/-- A comment that the first source ends in does not reach into the second. -/
theorem compose_parseWith_comment :
    parseWith ⟨40, true⟩ (Text.lit "a=b;//" ++ '\n' :: Text.lit "c=d;") =
      .ok [.assignment (some 0) ['a'] (.variable (some 2) ['b']),
        .assignment (some 7) ['c'] (.variable (some 9) ['d'])] := by
  have first : parseWith ⟨40, true⟩ (Text.lit "a=b;//") =
      .ok [.assignment (some 0) ['a'] (.variable (some 2) ['b'])] := eq_ok_copy (by decide +kernel)
  have second : parseWith ⟨40, true⟩ (Text.lit "c=d;") =
      .ok [.assignment (some 0) ['c'] (.variable (some 2) ['d'])] := eq_ok_copy (by decide +kernel)
  exact compose_parseWith first second

end SolidScript.Script
