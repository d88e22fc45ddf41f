import SolidScript.Proofs.Words
import SolidScript.Script.Places

/-!
# Scripts — the same, wherever they stand

Equality of constructs does not look at places, so a construct is the same as itself at any other
places, as long as every number in it is a number.

* `Statement.same_mapPlaces`: places do not matter to equality.
* `Script.same_of_mapPlaces`: scripts that differ in their places only are the same.
* `Script.allNumbers_words`: the numbers in a script that tokens say are numbers.
-/

namespace SolidScript

section Places
variable (f g : Place → Place)

mutual

/-- Places do not matter to the equality of expressions. -/
theorem Expr.same_mapPlaces : ∀ a b : Expr, (a.mapPlaces f).same (b.mapPlaces g) = a.same b
  | .undef _, b | .boolean _ _, b | .number _ _, b | .text _ _, b | .variable _ _, b => by
    cases b <;> simp only [Expr.mapPlaces, Expr.same]
  | .member _ e _, b | .unary _ _ e, b => by
    cases b <;> simp only [Expr.mapPlaces, Expr.same, Expr.same_mapPlaces e]
  | .index _ a i, b => by
    cases b <;> simp only [Expr.mapPlaces, Expr.same, Expr.same_mapPlaces a, Expr.same_mapPlaces i]
  | .vector _ es, b => by
    cases b <;> simp only [Expr.mapPlaces, Expr.same, Expr.sameList_mapPlaces es]
  | .range _ a s e, b => by
    cases b <;> simp only [Expr.mapPlaces, Expr.same, Expr.same_mapPlaces a,
      Expr.sameOption_mapPlaces s, Expr.same_mapPlaces e]
  | .call _ _ as, b => by
    cases b <;> simp only [Expr.mapPlaces, Expr.same, Argument.sameList_mapPlaces as]
  | .comprehension _ gs as e, b => by
    cases b <;> simp only [Expr.mapPlaces, Expr.same, Argument.sameGroups_mapPlaces gs,
      Argument.sameList_mapPlaces as, Expr.same_mapPlaces e]
  | .binary _ x _ y, b => by
    cases b <;> simp only [Expr.mapPlaces, Expr.same, Expr.same_mapPlaces x, Expr.same_mapPlaces y]
  | .ternary _ x y z, b => by
    cases b <;> simp only [Expr.mapPlaces, Expr.same, Expr.same_mapPlaces x, Expr.same_mapPlaces y,
      Expr.same_mapPlaces z]
  | .led _ _ as e, b => by
    cases b <;> simp only [Expr.mapPlaces, Expr.same, Argument.sameList_mapPlaces as,
      Expr.same_mapPlaces e]

theorem Expr.sameList_mapPlaces : ∀ as bs : List Expr,
    Expr.sameList (Expr.mapPlacesList f as) (Expr.mapPlacesList g bs) = Expr.sameList as bs
  | [], [] | [], _ :: _ | _ :: _, [] => by simp only [Expr.mapPlacesList, Expr.sameList]
  | a :: as, b :: bs => by
    simp only [Expr.mapPlacesList, Expr.sameList, Expr.same_mapPlaces a b,
      Expr.sameList_mapPlaces as bs]

theorem Expr.sameOption_mapPlaces : ∀ a b : Option Expr,
    Expr.sameOption (Expr.mapPlacesOption f a) (Expr.mapPlacesOption g b) = Expr.sameOption a b
  | none, none | none, some _ | some _, none => by
    simp only [Expr.mapPlacesOption, Expr.sameOption]
  | some a, some b => by
    simp only [Expr.mapPlacesOption, Expr.sameOption, Expr.same_mapPlaces a b]

/-- Places do not matter to whether arguments are the same. -/
theorem Argument.same_mapPlaces : ∀ a b : Argument,
    (a.mapPlaces f).same (b.mapPlaces g) = a.same b
  | .mk _ _ a, .mk _ _ b => by
    simp only [Argument.mapPlaces, Argument.same, Expr.same_mapPlaces a b]

theorem Argument.sameList_mapPlaces : ∀ as bs : List Argument,
    Argument.sameList (Argument.mapPlacesList f as) (Argument.mapPlacesList g bs) =
      Argument.sameList as bs
  | [], [] | [], _ :: _ | _ :: _, [] => by simp only [Argument.mapPlacesList, Argument.sameList]
  | a :: as, b :: bs => by
    simp only [Argument.mapPlacesList, Argument.sameList, Argument.same_mapPlaces a b,
      Argument.sameList_mapPlaces as bs]

theorem Argument.sameGroups_mapPlaces : ∀ as bs : List (List Argument),
    Argument.sameGroups (Argument.mapPlacesGroups f as) (Argument.mapPlacesGroups g bs) =
      Argument.sameGroups as bs
  | [], [] | [], _ :: _ | _ :: _, [] => by simp only [Argument.mapPlacesGroups, Argument.sameGroups]
  | a :: as, b :: bs => by
    simp only [Argument.mapPlacesGroups, Argument.sameGroups, Argument.sameList_mapPlaces a b,
      Argument.sameGroups_mapPlaces as bs]

end

/-- Places do not matter to whether parameters are the same. -/
theorem Parameter.same_mapPlaces (a b : Parameter) :
    (a.mapPlaces f).same (b.mapPlaces g) = a.same b := by
  simp only [Parameter.mapPlaces, Parameter.same, Expr.sameOption_mapPlaces]

theorem Parameter.sameList_mapPlaces : ∀ as bs : List Parameter,
    Parameter.sameList (as.map (Parameter.mapPlaces f)) (bs.map (Parameter.mapPlaces g)) =
      Parameter.sameList as bs
  | [], [] | [], _ :: _ | _ :: _, [] => rfl
  | a :: as, b :: bs => by
    simp only [List.map_cons, Parameter.sameList, Parameter.same_mapPlaces f g a b,
      sameList_mapPlaces as bs]

mutual

/-- Places do not matter to the equality of statements. -/
theorem Statement.same_mapPlaces : ∀ a b : Statement,
    (a.mapPlaces f).same (b.mapPlaces g) = a.same b
  | .empty _, b | .file _ _ _, b => by cases b <;> simp only [Statement.mapPlaces, Statement.same]
  | .block _ ss, b => by
    cases b <;> simp only [Statement.mapPlaces, Statement.same, Statement.sameList_mapPlaces ss]
  | .moduleDefinition _ _ ps s, b => by
    cases b <;> simp only [Statement.mapPlaces, Statement.same, Parameter.sameList_mapPlaces,
      Statement.same_mapPlaces s]
  | .functionDefinition _ _ ps e, b => by
    cases b <;> simp only [Statement.mapPlaces, Statement.same, Parameter.sameList_mapPlaces,
      Expr.same_mapPlaces]
  | .assignment _ _ e, b => by
    cases b <;> simp only [Statement.mapPlaces, Statement.same, Expr.same_mapPlaces]
  | .call _ _ as s _, b | .loop _ as s _, b => by
    cases b <;> simp only [Statement.mapPlaces, Statement.same, Argument.sameList_mapPlaces,
      Statement.same_mapPlaces s]
  | .conditional _ e x y, b => by
    cases b <;> simp only [Statement.mapPlaces, Statement.same, Expr.same_mapPlaces,
      Statement.same_mapPlaces x, Statement.sameOption_mapPlaces y]
  | .modified _ _ s, b => by
    cases b <;> simp only [Statement.mapPlaces, Statement.same, Statement.same_mapPlaces s]

theorem Statement.sameList_mapPlaces : ∀ as bs : List Statement,
    Statement.sameList (Statement.mapPlacesList f as) (Statement.mapPlacesList g bs) =
      Statement.sameList as bs
  | [], [] | [], _ :: _ | _ :: _, [] => by simp only [Statement.mapPlacesList, Statement.sameList]
  | a :: as, b :: bs => by
    simp only [Statement.mapPlacesList, Statement.sameList, Statement.same_mapPlaces a b,
      Statement.sameList_mapPlaces as bs]

theorem Statement.sameOption_mapPlaces : ∀ a b : Option Statement,
    Statement.sameOption (Statement.mapPlacesOption f a) (Statement.mapPlacesOption g b) =
      Statement.sameOption a b
  | none, none | none, some _ | some _, none => by
    simp only [Statement.mapPlacesOption, Statement.sameOption]
  | some a, some b => by
    simp only [Statement.mapPlacesOption, Statement.sameOption, Statement.same_mapPlaces a b]

end

end Places

/-! ### The same as themselves -/

/-- Every number among the words is one. -/
def AllNumbers (ws : List Word) : Prop := ∀ v, Word.number v ∈ ws → v.isNaN = false

@[simp] theorem allNumbers_nil : AllNumbers [] := fun _ h => by cases h

/-- No number is NaN in words in a row if none is in either part. -/
@[simp] theorem allNumbers_append {ws vs : List Word} :
    AllNumbers (ws ++ vs) ↔ AllNumbers ws ∧ AllNumbers vs := by
  simp only [AllNumbers, List.mem_append, or_imp, forall_and]

@[simp] theorem allNumbers_cons {w : Word} {ws : List Word} :
    AllNumbers (w :: ws) ↔ (∀ v, w = .number v → v.isNaN = false) ∧ AllNumbers ws := by
  simp only [AllNumbers, List.mem_cons, or_imp, forall_and, eq_comm]

mutual

/-- An expression in which no number is NaN is the same as itself. -/
theorem Expr.same_self : ∀ e : Expr, AllNumbers e.words → e.same e = true
  | .undef _, _ | .boolean _ _, _ | .text _ _, _ | .variable _ _, _ => by simp [Expr.same]
  | .number _ v, h => by simpa [Expr.same, Number.Double.same_self, Expr.words] using h
  | .member _ e _, h | .unary _ _ e, h => by
    simp only [Expr.words, allNumbers_append] at h
    simp [Expr.same, Expr.same_self e, h]
  | .index _ a i, h => by
    simp only [Expr.words, allNumbers_append] at h
    simp [Expr.same, Expr.same_self a h.1, Expr.same_self i h.2]
  | .vector _ es, h => by
    simp only [Expr.words] at h
    simp [Expr.same, Expr.sameList_self es h]
  | .range _ a s b, h => by
    simp only [Expr.words, allNumbers_append] at h
    simp [Expr.same, Expr.same_self a h.1.1, Expr.sameOption_self s h.1.2, Expr.same_self b h.2]
  | .call _ _ as, h => by
    simp only [Expr.words, allNumbers_cons] at h
    simp [Expr.same, Argument.sameList_self as h.2]
  | .comprehension _ gs as e, h => by
    simp only [Expr.words, allNumbers_append] at h
    simp [Expr.same, Argument.sameGroups_self gs h.1.1, Argument.sameList_self as h.1.2,
      Expr.same_self e h.2]
  | .binary _ a _ b, h => by
    simp only [Expr.words, allNumbers_append] at h
    simp [Expr.same, Expr.same_self a h.1.1, Expr.same_self b h.2]
  | .ternary _ c a b, h => by
    simp only [Expr.words, allNumbers_append] at h
    simp [Expr.same, Expr.same_self c h.1.1, Expr.same_self a h.1.2, Expr.same_self b h.2]
  | .led _ _ as e, h => by
    simp only [Expr.words, allNumbers_append] at h
    simp [Expr.same, Argument.sameList_self as h.1, Expr.same_self e h.2]

theorem Expr.sameList_self : ∀ es : List Expr, AllNumbers (Expr.wordsList es) →
    Expr.sameList es es = true
  | [], _ => by simp only [Expr.sameList]
  | e :: es, h => by
    simp only [Expr.wordsList, allNumbers_append] at h
    simp [Expr.sameList, Expr.same_self e h.1, Expr.sameList_self es h.2]

theorem Expr.sameOption_self : ∀ o : Option Expr, AllNumbers (Expr.wordsOption o) →
    Expr.sameOption o o = true
  | none, _ => by simp only [Expr.sameOption]
  | some e, h => by
    simp only [Expr.wordsOption] at h
    simp [Expr.sameOption, Expr.same_self e h]

/-- An argument in which no number is NaN is the same as itself. -/
theorem Argument.same_self : ∀ a : Argument, AllNumbers a.words → a.same a = true
  | .mk _ none e, h => by
    simp only [Argument.words] at h
    simp [Argument.same, Expr.same_self e h]
  | .mk _ (some _) e, h => by
    simp only [Argument.words, allNumbers_cons] at h
    simp [Argument.same, Expr.same_self e h.2]

theorem Argument.sameList_self : ∀ as : List Argument, AllNumbers (Argument.wordsList as) →
    Argument.sameList as as = true
  | [], _ => by simp only [Argument.sameList]
  | a :: as, h => by
    simp only [Argument.wordsList, allNumbers_append] at h
    simp [Argument.sameList, Argument.same_self a h.1, Argument.sameList_self as h.2]

theorem Argument.sameGroups_self : ∀ gs : List (List Argument),
    AllNumbers (Argument.wordsGroups gs) → Argument.sameGroups gs gs = true
  | [], _ => by simp only [Argument.sameGroups]
  | g :: gs, h => by
    simp only [Argument.wordsGroups, allNumbers_append] at h
    simp [Argument.sameGroups, Argument.sameList_self g h.1, Argument.sameGroups_self gs h.2]

end

theorem Parameter.sameList_self : ∀ ps : List Parameter, AllNumbers (ps.flatMap Parameter.words) →
    Parameter.sameList ps ps = true
  | [], _ => rfl
  | p :: ps, h => by
    simp only [List.flatMap_cons, Parameter.words, allNumbers_append, allNumbers_cons] at h
    simp [Parameter.sameList, Parameter.same, Expr.sameOption_self _ h.1.2, sameList_self ps h.2]

mutual

/-- A statement is the same as itself. -/
theorem Statement.same_self : ∀ s : Statement, AllNumbers s.words → s.same s = true
  | .empty _, _ | .file _ _ _, _ => by simp [Statement.same]
  | .block _ ss, h => by
    simp only [Statement.words] at h
    simp [Statement.same, Statement.sameList_self ss h]
  | .moduleDefinition _ _ ps s, h => by
    simp only [Statement.words, allNumbers_append, allNumbers_cons] at h
    simp [Statement.same, Parameter.sameList_self ps h.1.2, Statement.same_self s h.2]
  | .functionDefinition _ _ ps e, h => by
    simp only [Statement.words, allNumbers_append, allNumbers_cons] at h
    simp [Statement.same, Parameter.sameList_self ps h.1.2, Expr.same_self e h.2]
  | .assignment _ _ e, h => by
    simp only [Statement.words, allNumbers_cons] at h
    simp [Statement.same, Expr.same_self e h.2]
  | .call _ _ as s _, h | .loop _ as s _, h => by
    simp only [Statement.words, allNumbers_append] at h
    simp [Statement.same, Argument.sameList_self as, Statement.same_self s, h]
  | .conditional _ e a b, h => by
    simp only [Statement.words, allNumbers_append] at h
    simp [Statement.same, Expr.same_self e h.1.1, Statement.same_self a h.1.2,
      Statement.sameOption_self b h.2]
  | .modified _ _ s, h => by
    simp only [Statement.words, allNumbers_append] at h
    simp [Statement.same, Statement.same_self s h.2]

theorem Statement.sameList_self : ∀ ss : List Statement, AllNumbers (Statement.wordsList ss) →
    Statement.sameList ss ss = true
  | [], _ => by simp only [Statement.sameList]
  | s :: ss, h => by
    simp only [Statement.wordsList, allNumbers_append] at h
    simp [Statement.sameList, Statement.same_self s h.1, Statement.sameList_self ss h.2]

theorem Statement.sameOption_self : ∀ o : Option Statement,
    AllNumbers (Statement.wordsOption o) → Statement.sameOption o o = true
  | none, _ => by simp only [Statement.sameOption]
  | some s, h => by
    simp only [Statement.wordsOption] at h
    simp [Statement.sameOption, Statement.same_self s h]

end

/-- Scripts that differ in their places only are the same. -/
theorem Script.same_of_mapPlaces {f g : Place → Place} {s t : Script}
    (h : Statement.mapPlacesList f s = Statement.mapPlacesList g t) (hs : AllNumbers s.words) :
    s.same t = true := by
  have self : s.same s = true := Statement.sameList_self s hs
  rw [Script.same, ← Statement.sameList_mapPlaces f g, ← h, Statement.sameList_mapPlaces]
  exact self

/-! ### Numbers that are read -/

/-- The value of a numeral is a number, infinity perhaps. -/
theorem Number.Numeral.isNaN_value (n : Numeral) : n.value.isNaN = false := by
  have le : ofSingle n.single ≤ Format.binary64.infinity := by
    unfold ofSingle
    split
    · exact Nat.le_refl _
    · exact Format.nearest_le_infinity _ _ _
  have lt : ofSingle n.single < Double.signBit := Nat.lt_of_le_of_lt le (by decide)
  simpa [value, Double.isNaN, Double.code_ofCode lt] using le

/-- A number among the words of tokens is the value of a numeral. -/
theorem Token.value_of_word {k : Token} {v : Number.Double} (h : k.word? = some (.number v)) :
    Number.Numeral.value? k.text = some v := by
  cases hk : k.kind <;> simp only [word?, hk] at h
  case number =>
    obtain ⟨w, hw, he⟩ := Option.map_eq_some_iff.1 h
    cases he
    exact hw
  case keyword =>
    obtain ⟨w, -, he⟩ := Option.map_eq_some_iff.1 h
    cases he
  case symbol => split at h <;> cases h
  all_goals cases h

/-- The numbers in a script that tokens say are numbers. -/
theorem Script.allNumbers_words {s : Script} {ks : List Token} (h : Says (.script s) ks)
    (hk : ∀ k ∈ ks, k.IsName → Keyword.isKeyword k.text = false) : AllNumbers s.words := by
  intro v hv
  rw [show s.words = ks.filterMap Token.word? from h.words hk] at hv
  obtain ⟨k, -, hw⟩ := List.mem_filterMap.1 hv
  obtain ⟨n, -, rfl⟩ := Option.map_eq_some_iff.1 (Token.value_of_word hw)
  exact n.isNaN_value

end SolidScript
