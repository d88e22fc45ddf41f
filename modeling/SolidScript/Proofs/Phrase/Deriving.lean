import SolidScript.Proofs.Phrase.Statements

/-!
# Phrase — derivations and what tokens spell

The tokens of a match derive from its rule, and tokens that derive from a rule are those of a tree:
with choices free and repetitions of any length a derivation is a tree whose leaves are its tokens,
and `shape_of_expands` reads that tree as well as one that was matched.

* `outcome_derives`: every match lies over tokens that derive from its rule.
* `says_of_derives`: tokens that derive from a document say a script.
-/

namespace SolidScript.Grammar
open SolidScript.Tree (gather)

/-! ### From matches to derivations -/

namespace Reading
variable {m n : Reading}

theorem inOrder_imp (h : ∀ p ts ks, m p ts ks → n p ts ks) :
    ∀ {ps : List Piece} {ts : List Tree} {ks : List Token}, m.InOrder ps ts ks → n.InOrder ps ts ks
  | [], _, _, hm => hm
  | _ :: _, _, _, ⟨us, ls, vs, ms, hp, hm, ht, hk⟩ =>
    ⟨us, ls, vs, ms, h _ _ _ hp, inOrder_imp h hm, ht, hk⟩

theorem again_imp (h : ∀ p ts ks, m p ts ks → n p ts ks) {ps : List Piece} {ts : List Tree}
    {ks : List Token} (hm : m.Again ps ts ks) : n.Again ps ts ks := by
  induction hm with
  | nil => exact .nil
  | cons hm _ ih => exact .cons (inOrder_imp h hm) ih

theorem expands_imp (h : ∀ p ts ks, m p ts ks → n p ts ks) {q : Production} {ts : List Tree}
    {ks : List Token} (hm : m.Expands q ts ks) : n.Expands q ts ks := by
  cases q with
  | sequence ps => exact inOrder_imp h hm
  | choice ps =>
    obtain ⟨p, hp, hm⟩ := hm
    exact ⟨p, hp, h _ _ _ hm⟩
  | maybe p => exact Or.imp_right (h _ _ _) hm
  | many p => exact again_imp h hm
  | chain p s =>
    obtain ⟨us, ls, vs, ms, hp, hm, ht, hk⟩ := hm
    exact ⟨us, ls, vs, ms, h _ _ _ hp, again_imp h hm, ht, hk⟩
  | notAhead t => exact hm

/-- The tokens derive from the piece. -/
def derived : Reading := fun p _ ks => Derives p ks

theorem derivesAll_of_inOrder : ∀ {ps : List Piece} {ts : List Tree} {ks : List Token},
    derived.InOrder ps ts ks → DerivesAll ps ks
  | [], _, _, ⟨_, hk⟩ => hk ▸ .nil
  | _ :: _, _, _, ⟨_, _, _, _, hp, hm, _, hk⟩ => hk ▸ .cons hp (derivesAll_of_inOrder hm)

theorem derivesMany_of_again {ps : List Piece} {ts : List Tree} {ks : List Token}
    (h : derived.Again ps ts ks) : DerivesMany ps ks := by
  induction h with
  | nil => exact .nil
  | cons h _ ih => exact .cons (derivesAll_of_inOrder h) ih

theorem derives_of_expands {r : Rule} {ts : List Tree} {ks : List Token}
    (h : derived.Expands r.production ts ks) : Derives (.rule r) ks := by
  cases hq : r.production <;> rw [hq] at h
  case sequence ps => exact .sequence hq (derivesAll_of_inOrder h)
  case choice ps =>
    obtain ⟨p, hp, h⟩ := h
    exact .choice hq hp h
  case maybe p =>
    rcases h with ⟨-, rfl⟩ | h
    · exact .nothing hq
    · exact .something hq h
  case many p => exact .many hq (derivesMany_of_again h)
  case chain p s =>
    obtain ⟨_, _, _, _, hp, h, -, rfl⟩ := h
    exact .chain hq hp (derivesMany_of_again h)
  case notAhead t =>
    obtain ⟨-, rfl⟩ := h
    exact .notAhead hq

end Reading

/-- Every match of a rule but that for documents lies over tokens that derive from the rule, and is
read as what these spell. -/
theorem outcome_derives {r : Rule} (hr : r ≠ .document) {here next : Cursor} {ts : List Tree}
    (h : outcome (.rule r) here = some (ts, next)) :
    ∃ ks, Laid here ks next ∧ Means r ts ks ∧ Derives (.rule r) ks := by
  refine outcome_laid (M := fun r ts ks => Means r ts ks ∧ Derives (.rule r) ks)
    (fun r ts ks h => ?_) (fun r ts ks hr h => ?_) hr h
  · refine ⟨means_of_expands r ts ks (Reading.expands_imp (fun p us ls h => ?_) h),
      Reading.derives_of_expands (Reading.expands_imp (fun p us ls h => ?_) h)⟩
    · cases p with
      | term t => exact h
      | rule q => exact h.1
    · cases p with
      | term t =>
        obtain ⟨k, -, ha, -, rfl⟩ := h
        exact .token ha
      | rule q => exact h.2
  · have reads : ReadsStatement ts ks := by rcases hr with rfl | rfl <;> exact h.1.2
    obtain ⟨t, s, -, -, hs⟩ := reads
    exact head_of_says hs

/-! ### From derivations to what tokens spell -/

/-- The piece is neither the end of the source nor a document. -/
def isInner : Piece → Bool
  | .term t => t ≠ .endOfInput
  | .rule r => r ≠ .document

theorem isInner_of_mem_pieces {r : Rule} (hr : r ≠ .document) :
    ∀ p ∈ r.production.pieces, isInner p = true := by
  revert hr
  cases r <;> decide

theorem inner_of_production {r : Rule} {q : Production} (hr : isInner (.rule r) = true)
    (h : r.production = q) : ∀ p ∈ q.pieces, isInner p = true := by
  subst h
  exact isInner_of_mem_pieces (by simpa [isInner] using hr)

theorem means_of_production {r : Rule} {q : Production} {ts : List Tree} {ks : List Token}
    (h : r.production = q) (hm : (Reading.By Means).Expands q ts ks) :
    ∃ ts, Reading.By Means (.rule r) ts ks := by
  subst h
  exact ⟨_, means_of_expands r ts ks hm⟩

mutual

/-- Tokens that derive from a piece are those of trees that mean what they spell. -/
theorem reads_of_derives : ∀ {p : Piece} {ks : List Token}, isInner p = true →
    (∀ k ∈ ks, Proper k) → Derives p ks → ∃ ts, Reading.By Means p ts ks
  | _, _, _, hk, .token h => ⟨_, _, hk _ List.mem_cons_self, h, rfl, rfl⟩
  | _, _, hp, _, .endOfInput => by cases hp
  | _, _, hp, hk, .sequence h d => by
    obtain ⟨ts, hd⟩ := reads_of_derivesAll (inner_of_production hp h) hk d
    exact means_of_production h hd
  | _, _, hp, hk, .choice h hm d => by
    obtain ⟨ts, hd⟩ := reads_of_derives (inner_of_production hp h _ hm) hk d
    exact means_of_production h ⟨_, hm, hd⟩
  | _, _, _, _, .nothing h => means_of_production h (.inl ⟨rfl, rfl⟩)
  | _, _, hp, hk, .something h d => by
    obtain ⟨ts, hd⟩ := reads_of_derives (inner_of_production hp h _ (.head _)) hk d
    exact means_of_production h (.inr hd)
  | _, _, hp, hk, .many h d => by
    obtain ⟨ts, hd⟩ := reads_of_derivesMany (inner_of_production hp h) hk d
    exact means_of_production h hd
  | _, _, hp, hk, .chain h d e => by
    rw [List.forall_mem_append] at hk
    have inner := inner_of_production hp h
    obtain ⟨ts, hd⟩ := reads_of_derives (inner _ (.head _)) hk.1 d
    obtain ⟨us, he⟩ := reads_of_derivesMany
      (fun p hp => inner p (by simpa [Production.pieces, or_comm] using hp)) hk.2 e
    exact means_of_production h ⟨ts, _, us, _, hd, he, rfl, rfl⟩
  | _, _, _, _, .notAhead h => means_of_production h ⟨rfl, rfl⟩
  | _, _, _, hk, .family h d => by
    obtain ⟨ts, hd⟩ := reads_of_derives rfl hk d
    rcases h with rfl | rfl <;> exact ⟨ts, hd⟩

theorem reads_of_derivesAll : ∀ {ps : List Piece} {ks : List Token}, (∀ p ∈ ps, isInner p = true) →
    (∀ k ∈ ks, Proper k) → DerivesAll ps ks → ∃ ts, (Reading.By Means).InOrder ps ts ks
  | _, _, _, _, .nil => ⟨[], rfl, rfl⟩
  | _, _, hp, hk, .cons d e => by
    rw [List.forall_mem_cons] at hp
    rw [List.forall_mem_append] at hk
    obtain ⟨ts, hd⟩ := reads_of_derives hp.1 hk.1 d
    obtain ⟨us, he⟩ := reads_of_derivesAll hp.2 hk.2 e
    exact ⟨ts ++ us, ts, _, us, _, hd, he, rfl, rfl⟩

theorem reads_of_derivesMany : ∀ {ps : List Piece} {ks : List Token},
    (∀ p ∈ ps, isInner p = true) → (∀ k ∈ ks, Proper k) → DerivesMany ps ks →
      ∃ ts, (Reading.By Means).Again ps ts ks
  | _, _, _, _, .nil => ⟨[], .nil⟩
  | _, _, hp, hk, .cons d e => by
    rw [List.forall_mem_append] at hk
    obtain ⟨ts, hd⟩ := reads_of_derivesAll hp hk.1 d
    obtain ⟨us, he⟩ := reads_of_derivesMany hp hk.2 e
    exact ⟨ts ++ us, .cons hd he⟩

end

/-- A document derives the tokens that its statements derive. -/
theorem isDocument_iff {ks : List Token} : IsDocument ks ↔ Derives (.rule .statements) ks := by
  constructor
  · intro h
    cases h with
    | sequence h d =>
      cases h
      obtain _ | ⟨hs, _ | ⟨he, ⟨⟩⟩⟩ := d
      cases he with
      | token h => exact h.elim
      | endOfInput => simpa using hs
    | choice h | nothing h | something h | many h | chain h | notAhead h => cases h
    | family h => rcases h with h | h <;> cases h
  · intro h
    have whole := DerivesAll.cons h (.cons .endOfInput .nil)
    rw [List.append_nil, List.append_nil] at whole
    exact .sequence rfl whole

/-- The tokens of a document say a script. -/
theorem says_of_isDocument {ks : List Token} (h : IsDocument ks) (hk : ∀ k ∈ ks, Proper k) :
    ∃ ss, Says (.script ss) ks := by
  obtain ⟨ts, -, p, us, ss, -, -, hs⟩ := reads_of_derives (p := .rule .statements) rfl hk
    (isDocument_iff.1 h)
  exact ⟨ss, hs⟩

end SolidScript.Grammar
