import SolidScript.Text.Basic

/-!
# Text — patterns

Regular expressions over characters and the texts that they spell.  A pattern says which texts
belong to a class; it says nothing of how one is found.
-/

namespace SolidScript

/-- A regular expression over characters. -/
inductive Pattern where
  /-- The empty text. -/
  | nothing
  /-- One character of a class. -/
  | one (p : Char → Bool)
  /-- This text. -/
  | exactly (w : Text)
  /-- One pattern after the other. -/
  | seq (a b : Pattern)
  /-- One pattern or the other. -/
  | either (a b : Pattern)
  /-- A pattern any number of times. -/
  | star (a : Pattern)

namespace Pattern

/-- The text belongs to the pattern. -/
inductive Spells : Pattern → Text → Prop where
  | nothing : Spells .nothing []
  | one {p : Char → Bool} {c : Char} (h : p c = true) : Spells (.one p) [c]
  | exactly (w : Text) : Spells (.exactly w) w
  | seq {a b : Pattern} {t u : Text} (h : Spells a t) (k : Spells b u) :
      Spells (.seq a b) (t ++ u)
  | left {a b : Pattern} {t : Text} (h : Spells a t) : Spells (.either a b) t
  | right {a b : Pattern} {t : Text} (h : Spells b t) : Spells (.either a b) t
  | starNil {a : Pattern} : Spells (.star a) []
  | starCons {a : Pattern} {t u : Text} (h : Spells a t) (k : Spells (.star a) u) :
      Spells (.star a) (t ++ u)

/-- The pattern or nothing. -/
def maybe (a : Pattern) : Pattern := either a nothing

/-- The pattern at least once. -/
def plus (a : Pattern) : Pattern := seq a (star a)

/-- The patterns one after the other. -/
def sequence : List Pattern → Pattern
  | []      => nothing
  | [a]     => a
  | a :: as => seq a (sequence as)

theorem spells_exactly_iff {w t : Text} : Spells (exactly w) t ↔ t = w := by
  constructor
  · rintro ⟨⟩; rfl
  · rintro rfl; exact .exactly _

theorem spells_either_iff {a b : Pattern} {t : Text} :
    Spells (either a b) t ↔ Spells a t ∨ Spells b t := by
  constructor
  · intro h
    cases h with
    | left h => exact .inl h
    | right h => exact .inr h
  · rintro (h | h)
    · exact .left h
    · exact .right h

theorem spells_maybe_iff {a : Pattern} {t : Text} : Spells (maybe a) t ↔ Spells a t ∨ t = [] := by
  rw [maybe, spells_either_iff]
  refine or_congr_right ⟨fun h => ?_, fun h => h ▸ .nothing⟩
  cases h; rfl

theorem spells_seq_iff {a b : Pattern} {t : Text} :
    Spells (seq a b) t ↔ ∃ u v, t = u ++ v ∧ Spells a u ∧ Spells b v := by
  constructor
  · intro h
    cases h with
    | seq h k => exact ⟨_, _, rfl, h, k⟩
  · rintro ⟨u, v, rfl, h, k⟩
    exact .seq h k

/-- A text of the class throughout is a number of its characters. -/
theorem spells_star_one_iff {p : Char → Bool} {t : Text} :
    Spells (star (one p)) t ↔ ∀ c ∈ t, p c = true := by
  constructor
  · intro h
    generalize hs : star (one p) = s at h
    induction h with
    | starNil => simp
    | starCons h k _ ih =>
      cases hs
      cases h with
      | one hc =>
        intro c hm
        rcases List.mem_cons.1 hm with rfl | hm
        · exact hc
        · exact ih rfl c hm
    | _ => cases hs
  · intro h
    induction t with
    | nil => exact .starNil
    | cons c t ih =>
      exact .starCons (.one (h c List.mem_cons_self))
        (ih fun d hd => h d (List.mem_cons_of_mem _ hd))

end Pattern

end SolidScript
