import SolidScript.Proofs.Phrase.Reached
import SolidScript.Proofs.Phrase.Sealing
import SolidScript.Proofs.Phrase.Standing

/-!
# Scripts — what is expected

A source that is refused is refused at a place that it could have gone on from: each of the
terminals that are reported as missed there could have come, and after it something that finishes
the source.

* `expected_parseWith`: the reported names are those of terminals that can come at the reported
  place, and there is always something that can.
-/

namespace SolidScript

namespace Script
open Grammar

/-- The source up to the place is read when the text and something after it follow on a new line. -/
def GoesOn (source : Text) (p : Nat) (w : Text) : Prop :=
  ∃ c s, ReadAs (source.take p ++ '\n' :: (w ++ c)) s

/-- A source whose tokens have the shapes of a document's is read. -/
theorem readAs_of_shapes {source : Text} {ks ls : List Token} (hd : IsDocument ks)
    (hs : ls.map Token.shape = ks.map Token.shape) (hl : LaidToEnd (.start source) ls) :
    ∃ s, ReadAs source s := by
  have proper : ∀ k ∈ ks, Proper k := fun k hk => by
    have mem : k.shape ∈ ls.map Token.shape := hs ▸ List.mem_map_of_mem hk
    obtain ⟨l, hl', he⟩ := List.mem_map.1 mem
    obtain ⟨kind, text⟩ := Prod.mk.inj he
    obtain ⟨next, laid, -⟩ := hl
    obtain ⟨_, _, hat⟩ := laid.exists_at hl'
    have := hat.proper
    rwa [Proper, kind, text] at this
  obtain ⟨ss, said⟩ := says_of_isDocument hd proper
  obtain ⟨ts, said, -⟩ := said.alike rfl (allAlike_of_shapes hs)
  obtain ⟨us, said, sealed⟩ := sealed_of_says said
  exact ⟨us, readAs_of_says said sealed hl⟩

/-- Where the front of a document has been reached, the source can go on with the rest of it, from
the place or from behind the gap there. -/
theorem goesOn_of_reached {source : Text} {ks ms : List Token} {there : Cursor}
    (h : Reached (.start source) ks there) (hd : IsDocument (ks ++ ms)) {p : Nat}
    (hp : p = there.offset ∨ p = (afterSkip there).offset) {w c : Text} {ls : List Token}
    (hl : LaidToEnd (.start (w ++ c)) ls) (hs : ls.map Token.shape = ms.map Token.shape) :
    GoesOn source p w := by
  have apart : ks.IsChain Token.Apart :=
    (List.isChain_append.1 (isChain_apart_of_isDocument hd)).1
  have hin := h.inside (Cursor.start_in source)
  obtain ⟨v, s, hrest, hv, hsource⟩ : ∃ v s, there.rest = v ++ s ∧ IsGap v s ∧
      source = source.take p ++ s := by
    rcases hp with rfl | rfl
    · exact ⟨[], there.rest, rfl, .nil _, by rw [hin.2, List.take_append_drop]⟩
    · obtain ⟨g, hg, -⟩ := exists_gap there
      obtain ⟨whole, isGap, -⟩ := gap_eq_some_iff.1 hg
      exact ⟨g, _, whole, isGap, by rw [(afterSkip_in hin).2, List.take_append_drop]⟩
  obtain ⟨n, r⟩ := there
  obtain rfl : r = v ++ s := hrest
  rw [hsource] at h
  refine ⟨c, readAs_of_shapes hd ?_ (h.splice apart hv hl)⟩
  have moved (d : Nat) : (ls.map (Token.moved d)).map Token.shape = ls.map Token.shape := by
    rw [List.map_map]
    rfl
  rw [List.map_append, moved, hs, List.map_append]

/-- From where a piece is tried, or from behind the gap there, the source can go on with the piece. -/
theorem goesOn_of_visits {source : Text} {q : Piece} {there : Cursor}
    (h : Visits (.rule .document) (.start source) q there) {p : Nat}
    (hp : p = there.offset ∨ p = (afterSkip there).offset) {w : Text} {ms : List Token}
    (hm : Derives q ms)
    (hw : ∀ ls : List Token, (∀ k ∈ ls, k.Alone) → ∃ ls', LaidToEnd (.start (w ++ written ls)) ls' ∧
      ls'.map Token.shape = (ms ++ ls).map Token.shape) : GoesOn source p w := by
  obtain ⟨ks, ls, fills, samples, hk⟩ := reached_of_visits h
  have reached : Reached (.start source) ks there := by
    rcases hk with hk | ⟨hk, -⟩
    · exact .laid hk
    · exact hk
  obtain ⟨ls', hl', shapes⟩ := hw ls fun k hk => alone_of_isSample (samples k hk)
  have document : IsDocument (ks ++ (ms ++ ls)) := by
    rw [← List.append_assoc]
    exact fills ms hm
  exact goesOn_of_reached reached document hp hl' shapes

/-! ### Records of what is missed -/

/-- Everything that is missed could have come at the place, and so could something. -/
def Honest (source : Text) (f : Furthest) : Prop :=
  (∀ t ∈ f.missed, ∃ w, t.reader w = some (w, []) ∧ GoesOn source f.offset w) ∧
    (f.missed = [] → GoesOn source f.offset [])

theorem Honest.join {source : Text} {a b : Furthest} (ha : Honest source a) (hb : Honest source b) :
    Honest source (a.join b) := by
  rcases Nat.lt_trichotomy a.offset b.offset with h | h | h
  · rw [Furthest.join_of_lt h]
    exact hb
  · rw [Furthest.join_of_eq h]
    refine ⟨fun t ht => ?_, fun hn => ?_⟩
    · rcases Furthest.mem_union.1 ht with ht | ht
      · exact ha.1 t ht
      · rw [h]
        exact hb.1 t ht
    · refine ha.2 ?_
      cases hm : a.missed with
      | nil => rfl
      | cons t ts =>
        have mem : t ∈ Furthest.union a.missed b.missed :=
          Furthest.mem_union.2 (.inl (by rw [hm]; exact List.mem_cons_self))
        rw [show Furthest.union a.missed b.missed = [] from hn] at mem
        cases mem
  · rw [Furthest.join_of_gt h]
    exact ha

theorem honest_miss {source : Text} {t : Terminal} {there : Cursor}
    (h : Visits (.rule .document) (.start source) (.term t) there) :
    Honest source ⟨(afterSkip there).offset, [t]⟩ := by
  refine ⟨fun u hu => ?_, fun hn => by cases hn⟩
  obtain rfl : u = t := List.mem_singleton.1 hu
  cases hs : u.sample with
  | some o =>
    obtain ⟨kind, w⟩ := o
    have sample : Token.IsSample ⟨kind, w, 0⟩ := ⟨u, hs⟩
    refine ⟨w, ?_, goesOn_of_visits h (.inr rfl) (.token (Terminal.accepts_sample hs 0))
      fun ls hls => ?_⟩
    · cases u with
      | keyword k => cases hs; cases k <;> decide
      | mark m => cases hs; cases m <;> decide
      | comment | endOfInput => cases hs
      | _ => cases hs; decide
    · obtain ⟨ls', hl', shapes⟩ := laidToEnd_written hls w.length
      have first := at_of_alone (alone_of_isSample sample) ls (g := []) (.nil _) 0
      refine ⟨_ :: ls', laidToEnd_cons_iff.2 ⟨_, first, ?_⟩, by rw [List.map_cons, shapes]; rfl⟩
      simpa using hl'
  | none =>
    have hc : u ≠ .comment := by
      rintro rfl
      cases h with
      | @enter r _ _ _ _ he => exact ne_comment_of_mem_pieces r _ (mem_pieces_of_enters he) rfl
    obtain rfl : u = .endOfInput := by cases u <;> first | rfl | exact absurd rfl hc | cases hs
    exact ⟨[], rfl, goesOn_of_visits h (.inr rfl) .endOfInput fun ls hls => laidToEnd_written hls 0⟩

theorem honest_notAhead {source : Text} {r : Rule} {t : Terminal} {there : Cursor}
    (h : Visits (.rule .document) (.start source) (.rule r) there)
    (hr : r.production = .notAhead t) {p : Nat}
    (hp : p = there.offset ∨ p = (afterSkip there).offset) : Honest source ⟨p, []⟩ := by
  refine ⟨fun t ht => absurd ht List.not_mem_nil, fun _ => ?_⟩
  exact goesOn_of_visits (w := []) h hp (.notAhead hr) fun ls hls => laidToEnd_written hls 0

/-! ### The first record -/

theorem honest_firstRecord (source : Text) : Honest source (firstRecord source) := by
  have comment {b r : Text} (hs : source = b ++ r) (hg : IsGap b r) :
      Honest source ⟨b.length, [.comment]⟩ := by
    refine ⟨fun t ht => ?_, fun hn => by cases hn⟩
    obtain rfl : t = .comment := List.mem_singleton.1 ht
    refine ⟨['/', '/'], rfl, [], [], readAs_of_says .emptyScript (by simp) ⟨_, .nil _, ?_⟩⟩
    have line : IsGap ['\n', '/', '/'] [] :=
      .blank (by decide) (@IsGap.line [] [] [] (by simp) (by simp) (.nil _))
    have whole := gap_eq_some_iff.2 ⟨rfl, hg.append line (by simp), rfl⟩
    rw [List.append_nil] at whole
    have skip := @afterSkip_of_gap (.start (b ++ ['\n', '/', '/'])) _ _ whole
    simp [hs, skip]
  unfold firstRecord
  cases hp : preface source with
  | none =>
    simp only [Cursor.read, Cursor.start, hp, Option.map_none]
    exact comment (b := []) rfl (.nil _)
  | some o =>
    simp only [Cursor.read, Cursor.start, hp, Option.map_some, Nat.zero_add]
    exact comment (splits_preface.append_eq hp).symm (isGap_preface hp)

/-! ### Whole sources -/

/-- The record that a source is refused with is honest. -/
theorem honest_of_refused {settings : Settings} {source : Text} {f : Furthest}
    (h : judge settings source = .refused f) : Honest source f := by
  have keeps := attempt_preserves (I := fun s => Honest source s.furthest) (p := .rule .document)
    (fun hv _ hs => hs.join (honest_miss hv))
    (fun hv hr hs => hs.join (honest_notAhead hv hr (by split <;> simp)))
    (fun _ hs => hs) settings.remember settings.depth (s := .start source)
    (Cursor.start_in source) (Table.truthful_empty source) (honest_firstRecord source)
  obtain ⟨s, hs, rfl⟩ := failed_of_refused h
  rw [hs] at keeps
  exact keeps

/-- The names that are reported for a source that is refused are those of terminals that could have
come there, and something could. -/
theorem expected_parseWith {settings : Settings} {source : Text} {ts : List Terminal} {p : Nat}
    (h : parseWith settings source = .error ⟨.missed ts, p⟩) :
    (∀ n ∈ (Cause.missed ts).expected, ∃ (t : Terminal) (w : Text), t.name = n ∧
        t.reader w = some (w, []) ∧ GoesOn source p w) ∧
      ((Cause.missed ts).expected = [] → GoesOn source p []) := by
  have honest : Honest source ⟨p, ts⟩ := by
    unfold parseWith at h
    split at h
    · cases h
    · rename_i furthest hj
      unfold explain at h
      split at h
      · cases h
      · cases h
        exact honest_of_refused hj
    · split at h <;> cases h
  refine ⟨fun n hn => ?_, fun hn => honest.2 (List.map_eq_nil_iff.1 hn)⟩
  obtain ⟨t, ht, rfl⟩ := List.mem_map.1 hn
  obtain ⟨w, hw, go⟩ := honest.1 t ht
  exact ⟨t, w, rfl, hw, go⟩

/-- After a name a parenthesis can come, and after half of `==` an expression. -/
theorem expected_parseWith_name :
    (∃ (t : Terminal) (w : Text), t.name = "(" ∧ t.reader w = some (w, []) ∧
        GoesOn (Text.lit "a") 1 w) ∧
      GoesOn (Text.lit "a==1;") 2 [] := by
  have refused {source : Text} {f : Failure} (h : (match parseWith ⟨40, false⟩ source with
      | .error g => decide (g = f)
      | .ok _    => false) = true) : parseWith ⟨40, false⟩ source = .error f := by
    split at h
    · rename_i hr
      rw [hr, of_decide_eq_true h]
    · cases h
  have name : parseWith ⟨40, false⟩ (Text.lit "a") =
      .error ⟨.missed [.mark .assign, .mark .openParen], 1⟩ := refused (by decide +kernel)
  have half : parseWith ⟨40, false⟩ (Text.lit "a==1;") = .error ⟨.missed [], 2⟩ :=
    refused (by decide +kernel)
  exact ⟨(expected_parseWith name).1 "(" (by decide), (expected_parseWith half).2 rfl⟩

end Script

end SolidScript
