import SolidScript.Text.Basic

/-!
# Text — readers

A reader takes a lexeme off the front of a text: it answers the lexeme and what follows it, or
refuses.  Readers are greedy and never take a choice back.

* `Reader.Splits`: the lexeme and what follows make up the text that was read.  Every reader built
  here splits, and a lexeme that a reader has to take is not empty (`Reader.Takes`).
-/

namespace SolidScript

/-- The lexeme at the front of a text and what follows it, if the text starts with one. -/
abbrev Reader := Text → Option (Text × Text)

namespace Reader

/-- One character of the class `p`. -/
def one (p : Char → Bool) : Reader
  | []     => none
  | c :: r => if p c then some ([c], r) else none

/-- As many characters of the class `p` as there are, perhaps none. -/
def all (p : Char → Bool) : Reader := fun t => some (t.takeWhile p, t.dropWhile p)

/-- The text `w`. -/
def word : Text → Reader
  | [],     t      => some ([], t)
  | _ :: _, []     => none
  | w :: v, c :: r => if w = c then (word v r).map fun (u, s) => (w :: u, s) else none

/-- What `first` reads, then what `second` reads. -/
def andThen (first second : Reader) : Reader := fun t =>
  match first t with
  | none        => none
  | some (u, r) =>
    match second r with
    | none        => none
    | some (v, s) => some (u ++ v, s)

/-- What `first` reads, or where it refuses what `second` reads. -/
def orElse (first second : Reader) : Reader := fun t =>
  match first t with
  | none => second t
  | some s => some s

/-- What `reader` reads, or where it refuses the empty lexeme. -/
def optional (reader : Reader) : Reader := orElse reader fun t => some ([], t)

/-- At least one character of the class `p`, and as many as there are. -/
def some1 (p : Char → Bool) : Reader := andThen (one p) (all p)

/-- The text does not go on with a character of the class `p`. -/
def stops (p : Char → Bool) : Text → Bool
  | []     => true
  | c :: _ => !p c

/-- What `reader` reads, unless a character of the class `p` follows. -/
def notBefore (reader : Reader) (p : Char → Bool) : Reader := fun t =>
  match reader t with
  | none        => none
  | some (u, r) => if stops p r then some (u, r) else none

/-- What `reader` reads, unless `other` reads something here too. -/
def excluding (reader other : Reader) : Reader := fun t =>
  if (other t).isSome then none else reader t

/-- What `reader` reads, again and again, at most as often as the budget has characters. -/
def again (reader : Reader) : Text → Reader
  | [],          t => some ([], t)
  | _ :: budget, t =>
    match reader t with
    | none        => some ([], t)
    | some (u, r) =>
      match again reader budget r with
      | none        => none
      | some (v, s) => some (u ++ v, s)

/-- What `reader` reads, again and again until it refuses.  A reader that takes something can go
on no more often than there are characters. -/
def many (reader : Reader) : Reader := fun t => again reader t t

/-- What the first of the readers that does not refuse reads. -/
def firstOf : List Reader → Reader
  | [],          _ => none
  | r :: others, t => orElse r (firstOf others) t

/-! ### Lexeme and rest make up the text -/

/-- The lexeme and what follows it make up the text that was read. -/
structure Splits (reader : Reader) : Prop where
  append_eq : ∀ {t u r : Text}, reader t = some (u, r) → u ++ r = t

/-- The lexeme is not empty. -/
structure Takes (reader : Reader) : Prop where
  ne_nil : ∀ {t u r : Text}, reader t = some (u, r) → u ≠ []

theorem Splits.one (p : Char → Bool) : Splits (one p) := by
  refine ⟨fun {t u r} h => ?_⟩
  cases t with
  | nil => simp [Reader.one] at h
  | cons c s =>
    obtain ⟨-, rfl, rfl⟩ : p c = true ∧ [c] = u ∧ s = r := by simpa [Reader.one] using h
    simp

theorem Takes.one (p : Char → Bool) : Takes (one p) := by
  refine ⟨fun {t u r} h => ?_⟩
  cases t with
  | nil => simp [Reader.one] at h
  | cons c s =>
    obtain ⟨-, rfl, rfl⟩ : p c = true ∧ [c] = u ∧ s = r := by simpa [Reader.one] using h
    simp

theorem Splits.all (p : Char → Bool) : Splits (all p) := by
  refine ⟨fun {t u r} h => ?_⟩
  simp only [Reader.all, Option.some.injEq, Prod.mk.injEq] at h
  rw [← h.1, ← h.2, List.takeWhile_append_dropWhile]

/-- A fixed text is read exactly off a text that starts with it. -/
theorem word_eq_some_iff {w t u r : Text} : word w t = some (u, r) ↔ u = w ∧ t = w ++ r := by
  induction w generalizing t u with
  | nil => simp [word, and_comm, eq_comm]
  | cons a v ih =>
    cases t with
    | nil => simp [word]
    | cons c s =>
      simp only [word]
      split
      · subst_vars
        simp only [Option.map_eq_some_iff, Prod.exists, Prod.mk.injEq, List.cons_append,
          List.cons.injEq, true_and]
        constructor
        · rintro ⟨x, y, hx, rfl, rfl⟩
          obtain ⟨rfl, rfl⟩ := ih.1 hx
          exact ⟨rfl, rfl⟩
        · rintro ⟨rfl, rfl⟩
          exact ⟨v, r, ih.2 ⟨rfl, rfl⟩, rfl, rfl⟩
      · rename_i hne
        simp [Ne.symm hne]

theorem Splits.word (w : Text) : Splits (word w) := by
  refine ⟨fun {t u r} h => ?_⟩
  obtain ⟨rfl, rfl⟩ := word_eq_some_iff.1 h
  rfl

theorem Takes.word {w : Text} (hw : w ≠ []) : Takes (word w) := by
  refine ⟨fun {t u r} h => ?_⟩
  obtain ⟨rfl, -⟩ := word_eq_some_iff.1 h
  exact hw

/-- Two readers in a row read what the first does and then the second behind it. -/
theorem andThen_eq_some_iff {a b : Reader} {t w s : Text} :
    andThen a b t = some (w, s) ↔
      ∃ u r v, a t = some (u, r) ∧ b r = some (v, s) ∧ w = u ++ v := by
  unfold andThen
  constructor
  · intro h
    split at h
    · cases h
    · split at h
      · cases h
      · rename_i hu _ _ _ hv
        cases h
        exact ⟨_, _, _, hu, hv, rfl⟩
  · rintro ⟨u, r, v, hu, hv, rfl⟩
    simp [hu, hv]

/-- Where the first of two readers in a row reads something, the second settles what they read. -/
theorem andThen_of_some {a : Reader} {t u r : Text} (h : a t = some (u, r)) (b : Reader) :
    andThen a b t = (b r).map fun (v, s) => (u ++ v, s) := by
  unfold andThen
  rw [h]
  cases hb : b r <;> simp [hb]

/-- Readers in a row split a text if both do. -/
theorem Splits.andThen {a b : Reader} (ha : Splits a) (hb : Splits b) :
    Splits (andThen a b) := by
  refine ⟨fun {t w s} h => ?_⟩
  obtain ⟨u, r, v, hu, hv, rfl⟩ := andThen_eq_some_iff.1 h
  rw [List.append_assoc, hb.append_eq hv, ha.append_eq hu]

/-- Readers in a row take something if the first does. -/
theorem Takes.andThen_left {a b : Reader} (ha : Takes a) : Takes (andThen a b) := by
  refine ⟨fun {t w s} h => ?_⟩
  obtain ⟨u, r, v, hu, -, rfl⟩ := andThen_eq_some_iff.1 h
  exact fun hn => ha.ne_nil hu (List.append_eq_nil_iff.1 hn).1

/-- A reader with another in its stead splits a text if both do. -/
theorem Splits.orElse {a b : Reader} (ha : Splits a) (hb : Splits b) : Splits (orElse a b) := by
  refine ⟨fun {t u r} h => ?_⟩
  unfold Reader.orElse at h
  split at h
  · exact hb.append_eq h
  · rename_i h'
    cases h
    exact ha.append_eq h'

/-- A reader with another in its stead takes something if both do. -/
theorem Takes.orElse {a b : Reader} (ha : Takes a) (hb : Takes b) : Takes (orElse a b) := by
  refine ⟨fun {t u r} h => ?_⟩
  unfold Reader.orElse at h
  split at h
  · exact hb.ne_nil h
  · rename_i h'
    cases h
    exact ha.ne_nil h'

theorem Splits.optional {a : Reader} (ha : Splits a) : Splits (optional a) :=
  .orElse ha ⟨fun h => by cases h; rfl⟩

theorem Splits.some1 (p : Char → Bool) : Splits (some1 p) :=
  Splits.andThen (Splits.one p) (Splits.all p)

theorem Takes.some1 (p : Char → Bool) : Takes (some1 p) :=
  Takes.andThen_left (Takes.one p)

theorem Splits.notBefore {a : Reader} {p : Char → Bool} (ha : Splits a) :
    Splits (notBefore a p) := by
  refine ⟨fun {t u r} h => ?_⟩
  unfold Reader.notBefore at h
  split at h
  · cases h
  · rename_i h'
    split at h
    · cases h
      exact ha.append_eq h'
    · cases h

theorem Takes.notBefore {a : Reader} {p : Char → Bool} (ha : Takes a) :
    Takes (notBefore a p) := by
  refine ⟨fun {t u r} h => ?_⟩
  unfold Reader.notBefore at h
  split at h
  · cases h
  · rename_i h'
    split at h
    · cases h
      exact ha.ne_nil h'
    · cases h

theorem Splits.excluding {a b : Reader} (ha : Splits a) : Splits (excluding a b) := by
  refine ⟨fun {t u r} h => ?_⟩
  unfold Reader.excluding at h
  split at h
  · cases h
  · exact ha.append_eq h

theorem Takes.excluding {a b : Reader} (ha : Takes a) : Takes (excluding a b) := by
  refine ⟨fun {t u r} h => ?_⟩
  unfold Reader.excluding at h
  split at h
  · cases h
  · exact ha.ne_nil h

/-- A reader that is used again and again splits a text if it does. -/
theorem Splits.again {a : Reader} (ha : Splits a) (budget : Text) : Splits (again a budget) := by
  induction budget with
  | nil => exact ⟨fun h => by cases h; rfl⟩
  | cons _ budget ih =>
    refine ⟨fun {t w s} h => ?_⟩
    unfold Reader.again at h
    split at h
    · cases h; rfl
    · rename_i u r hu
      split at h
      · cases h
      · rename_i v s' hv
        cases h
        rw [List.append_assoc, ih.append_eq hv, ha.append_eq hu]

theorem Splits.many {a : Reader} (ha : Splits a) : Splits (many a) :=
  ⟨fun h => (ha.again _).append_eq h⟩

/-- The first of the readers that reads something splits a text if all of them do. -/
theorem Splits.firstOf {readers : List Reader} (h : ∀ a ∈ readers, Splits a) :
    Splits (firstOf readers) := by
  induction readers with
  | nil => exact ⟨fun h => by cases h⟩
  | cons a others ih =>
    exact .orElse (h a List.mem_cons_self) (ih fun b hb => h b (List.mem_cons_of_mem _ hb))

/-- The first of the readers that reads something takes something if all of them do. -/
theorem Takes.firstOf {readers : List Reader} (h : ∀ a ∈ readers, Takes a) :
    Takes (firstOf readers) := by
  induction readers with
  | nil => exact ⟨fun h => by cases h⟩
  | cons a others ih =>
    exact .orElse (h a List.mem_cons_self) (ih fun b hb => h b (List.mem_cons_of_mem _ hb))

/-! ### Runs of one class -/

/-- A text stops if it starts with no character of the class. -/
theorem stops_iff {p : Char → Bool} {t : Text} :
    stops p t = true ↔ ∀ c r, t = c :: r → p c = false := by
  cases t with
  | nil => simp [stops]
  | cons c r => simp [stops]

/-- A text of the class and what follows it, where that starts with no character of the class. -/
theorem exists_run (p : Char → Bool) (t : Text) :
    ∃ u r, t = u ++ r ∧ (∀ c ∈ u, p c = true) ∧ stops p r = true := by
  refine ⟨t.takeWhile p, t.dropWhile p, List.takeWhile_append_dropWhile.symm,
    fun c hc => List.all_eq_true.1 List.all_takeWhile c hc, ?_⟩
  cases h : t.dropWhile p with
  | nil => rfl
  | cons c r => simpa [stops, h] using List.head?_dropWhile_not p t

/-- All characters of a class are read, up to where the text goes on with none. -/
theorem all_append {p : Char → Bool} {u r : Text} (hu : ∀ c ∈ u, p c = true)
    (hr : stops p r = true) : all p (u ++ r) = some (u, r) := by
  rw [all, List.takeWhile_append_of_pos hu, List.dropWhile_append_of_pos hu]
  cases r with
  | nil => simp
  | cons c r =>
    have hc : p c = false := stops_iff.1 hr c r rfl
    simp [hc]

/-- Some characters of a class are read, up to where the text goes on with none. -/
theorem some1_append {p : Char → Bool} {u r : Text} (hn : u ≠ []) (hu : ∀ c ∈ u, p c = true)
    (hr : stops p r = true) : some1 p (u ++ r) = some (u, r) := by
  cases u with
  | nil => exact absurd rfl hn
  | cons c u =>
    have hc : p c = true := hu c List.mem_cons_self
    have rest := all_append (fun d hd => hu d (List.mem_cons_of_mem _ hd)) hr
    simp [some1, andThen, one, hc, rest]

theorem some1_of_stops {p : Char → Bool} {t : Text} (h : stops p t = true) : some1 p t = none := by
  cases t with
  | nil => rfl
  | cons c r => simp [some1, andThen, one, stops_iff.1 h c r rfl]

/-- A run of a class is not empty, is of the class, and goes on as long as it can. -/
theorem some1_eq_some_iff {p : Char → Bool} {t u r : Text} :
    some1 p t = some (u, r) ↔ t = u ++ r ∧ u ≠ [] ∧ (∀ c ∈ u, p c = true) ∧ stops p r = true := by
  constructor
  · intro h
    obtain ⟨v, s, rfl, hv, hs⟩ := exists_run p t
    by_cases hn : v = []
    · subst hn
      rw [List.nil_append, some1_of_stops hs] at h
      cases h
    · rw [some1_append hn hv hs] at h
      cases h
      exact ⟨rfl, hn, hv, hs⟩
  · rintro ⟨rfl, hn, hu, hr⟩
    exact some1_append hn hu hr

/-- Reading again and again never refuses. -/
theorem again_isSome (a : Reader) (budget t : Text) : (again a budget t).isSome := by
  induction budget generalizing t with
  | nil => rfl
  | cons _ budget ih =>
    unfold again
    split
    · rfl
    · rename_i u r _
      cases h : again a budget r with
      | none => simpa [h] using ih r
      | some _ => rfl

/-- A budget of as many characters as there are is enough. -/
theorem again_eq_again {a : Reader} (hs : a.Splits) (ht : a.Takes) :
    ∀ {b b' t : Text}, t.length ≤ b.length → t.length ≤ b'.length → again a b t = again a b' t := by
  have shrinks {t u r : Text} (h : a t = some (u, r)) : r.length < t.length := by
    rw [← hs.append_eq h, List.length_append]
    exact Nat.lt_add_of_pos_left (List.length_pos_iff.2 (ht.ne_nil h))
  intro b
  induction b with
  | nil =>
    intro b' t hb _
    cases t with
    | cons c t => simp at hb
    | nil =>
      cases b' with
      | nil => rfl
      | cons d b' =>
        unfold again
        split
        · rfl
        · rename_i h
          exact absurd (shrinks h) (Nat.not_lt_zero _)
  | cons c b ih =>
    intro b' t hb hb'
    cases b' with
    | nil =>
      cases t with
      | cons c t => simp at hb'
      | nil =>
        unfold again
        split
        · rfl
        · rename_i h
          exact absurd (shrinks h) (Nat.not_lt_zero _)
    | cons d b' =>
      unfold again
      split
      · rfl
      · rename_i u r h
        have := shrinks h
        rw [List.length_cons] at hb hb'
        have shorter : r.length ≤ b'.length := by omega
        rw [ih (by omega) shorter]

/-- A reader that refuses the text is used no time. -/
theorem many_of_none {a : Reader} {t : Text} (h : a t = none) : many a t = some ([], t) := by
  unfold many
  cases t with
  | nil => rfl
  | cons c t => simp [again, h]

/-- Reading again and again is reading, and reading again and again what follows. -/
theorem many_of_some {a : Reader} (hs : a.Splits) (ht : a.Takes) {t u r : Text}
    (h : a t = some (u, r)) : many a t = (many a r).map fun (v, s) => (u ++ v, s) := by
  have hl : r.length < t.length := by
    rw [← hs.append_eq h, List.length_append]
    exact Nat.lt_add_of_pos_left (List.length_pos_iff.2 (ht.ne_nil h))
  cases t with
  | nil => exact absurd hl (Nat.not_lt_zero _)
  | cons c t =>
    rw [List.length_cons] at hl
    have shorter : r.length ≤ t.length := by omega
    have budget := again_eq_again hs ht shorter (Nat.le_refl r.length)
    have step : many a (c :: t) = (again a t r).map fun (v, s) => (u ++ v, s) := by
      simp only [many, again, h]
      cases again a t r <;> rfl
    rw [step, budget, many]

end Reader

end SolidScript
