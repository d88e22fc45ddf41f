import SolidScript.Proofs.Rendering
import SolidScript.Script.Grouping

/-!
# Scripts — operators between operands

Operands with operators between them, each operand signs and something that was read from a source,
are read as the tree that groups them by the rightmost operator of the loosest tier.

The tree is described without the grammar (`OperatorChain.Groups`), and there is one and, places
aside, no other (`OperatorChain.exists_groups`, `OperatorChain.Groups.unique`).  The tokens of the
formula spell it at the level of its loosest operator: what is left of the last of these stands at
that level again, what is right of it one level further in (`spells_of_groups`).

* `assigned_groups`: a formula that is assigned to a name is read as the assignment of its tree.
-/

namespace SolidScript
open Line (Lies closes mark unequal)
open Text (isDigit lit)

/-! ### The tree of a chain -/

namespace OperatorChain

/-- Among operators there is a last one of the loosest tier. -/
theorem exists_loosest : ∀ ps : List (BinaryOp × Expr), ps ≠ [] →
    ∃ before o e after, ps = before ++ (o, e) :: after ∧
      (∀ p ∈ before, o.tier ≤ p.1.tier) ∧ ∀ p ∈ after, o.tier < p.1.tier
  | [], h => absurd rfl h
  | [(o, e)], _ => ⟨[], o, e, [], rfl, by simp, by simp⟩
  | p :: q :: ps, _ => by
      obtain ⟨before, o, e, after, split, left, right⟩ :=
        exists_loosest (q :: ps) (List.cons_ne_nil _ _)
      by_cases le : o.tier ≤ p.1.tier
      · exact ⟨p :: before, o, e, after, by rw [split, List.cons_append],
          List.forall_mem_cons.2 ⟨le, left⟩, right⟩
      -- The first operator is looser than the loosest of the others.
      · refine ⟨[], p.1, p.2, q :: ps, rfl, by simp, fun r hr => ?_⟩
        rw [split] at hr
        rcases List.mem_append.1 hr with hr | hr
        · exact Nat.lt_of_lt_of_le (Nat.not_le.1 le) (left r hr)
        · rcases List.mem_cons.1 hr with rfl | hr
          · exact Nat.not_le.1 le
          · exact Nat.lt_trans (Nat.not_le.1 le) (right r hr)

/-- Among operators there is one last one of the loosest tier. -/
theorem loosest_unique {before after before' after' : List (BinaryOp × Expr)} {o o' : BinaryOp}
    {e e' : Expr} (h : before ++ (o, e) :: after = before' ++ (o', e') :: after')
    (left : ∀ p ∈ before, o.tier ≤ p.1.tier) (right : ∀ p ∈ after, o.tier < p.1.tier)
    (left' : ∀ p ∈ before', o'.tier ≤ p.1.tier) (right' : ∀ p ∈ after', o'.tier < p.1.tier) :
    before = before' ∧ (o, e) = (o', e') ∧ after = after' := by
  -- Of two, the first would have to be looser than the second, and the second as loose.
  rcases List.append_eq_append_iff.1 h with ⟨z, rfl, hz⟩ | ⟨z, rfl, hz⟩
  · cases z with
    | nil =>
      obtain ⟨same, rest⟩ := List.cons.inj hz
      exact ⟨(List.append_nil _).symm, same, rest⟩
    | cons p z =>
      obtain ⟨rfl, rfl⟩ := List.cons.inj hz
      have loose := left' (o, e) (by simp)
      have tight := right (o', e') (by simp)
      exact absurd loose (Nat.not_le.2 tight)
  · cases z with
    | nil =>
      obtain ⟨same, rest⟩ := List.cons.inj hz
      exact ⟨List.append_nil _, same.symm, rest.symm⟩
    | cons p z =>
      obtain ⟨rfl, rfl⟩ := List.cons.inj hz
      have loose := left (o', e') (by simp)
      have tight := right' (o, e) (by simp)
      exact absurd loose (Nat.not_le.2 tight)

/-- Every chain groups to a tree. -/
theorem exists_groups (first : Expr) (rest : List (BinaryOp × Expr)) :
    ∃ tree, Groups ⟨first, rest⟩ tree := by
  by_cases h : rest = []
  · subst h
    exact ⟨first, .operand first⟩
  · obtain ⟨before, o, second, after, rfl, left, right⟩ := exists_loosest rest h
    obtain ⟨l, hl⟩ := exists_groups first before
    obtain ⟨r, hr⟩ := exists_groups second after
    exact ⟨.binary none l o r, .split left right hl hr⟩
termination_by rest.length

/-- A chain groups to one tree, places of operations aside. -/
theorem Groups.unique {c : OperatorChain} {s t : Expr} (hs : c.Groups s) (ht : c.Groups t) :
    s.bare = t.bare := by
  induction hs generalizing t with
  | operand e =>
    generalize hc : (⟨e, []⟩ : OperatorChain) = c at ht
    cases ht with
    | operand => cases hc; rfl
    | split => simp at hc
  | @split first second l r before after o place left right _ _ ihl ihr =>
    generalize hc : (⟨first, before ++ (o, second) :: after⟩ : OperatorChain) = c at ht
    cases ht with
    | operand => simp at hc
    | @split _ second' l' r' before' after' o' place' left' right' hl' hr' =>
      obtain ⟨rfl, rests⟩ := OperatorChain.mk.inj hc
      obtain ⟨rfl, same, rfl⟩ := loosest_unique rests left right left' right'
      obtain ⟨rfl, rfl⟩ := Prod.mk.inj same
      have same_left : l.bare = l'.bare := ihl hl'
      have same_right : r.bare = r'.bare := ihr hr'
      simp only [Expr.bare, Expr.mapPlaces] at same_left same_right ⊢
      rw [same_left, same_right]

end OperatorChain

/-! ### Levels of tiers -/

/-- The level of operations whose operators are of the tier or tighter ones; past the last tier it
is that of operands. -/
def Level.ofTier : Nat → Level
  | 0 => .tier .disjunction
  | 1 => .tier .comparison
  | 2 => .tier .sum
  | 3 => .tier .product
  | _ => .unary

/-- Every operator belongs to a tier, and the tier is the level that it groups at. -/
theorem BinaryOp.exists_level (o : BinaryOp) :
    ∃ t : Tier, Level.ofTier o.tier = .tier t ∧ Level.ofTier (o.tier + 1) = t.next ∧
      t.terminal.Accepts ⟨.symbol, o.text, 0⟩ := by
  rcases o with c | o
  · exact ⟨.disjunction, rfl, rfl, by cases c <;> decide⟩
  · cases o with
    | gt | ge | eq | ne | le | lt => exact ⟨.comparison, rfl, rfl, by decide⟩
    | add | sub => exact ⟨.sum, rfl, rfl, by decide⟩
    | mul | div | rem => exact ⟨.product, rfl, rfl, by decide⟩

/-- What stands at the level of a tier stands at those of looser ones. -/
theorem Spells.looser {n m : Nat} (le : n ≤ m) {e : Expr} {ks : List Token}
    (h : Spells (.expr (.ofTier m) e) ks) : Spells (.expr (.ofTier n) e) ks := by
  induction le with
  | refl => exact h
  | @step m _ ih =>
    refine ih ?_
    -- One level: an operand of an operation stands where the operation does.
    match m, h with
    | 0, h => exact .operand (t := .disjunction) h
    | 1, h => exact .operand (t := .comparison) h
    | 2, h => exact .operand (t := .sum) h
    | 3, h => exact .operand (t := .product) h
    | _ + 4, h => exact h

/-! ### Operands -/

/-- The expression is a part of what some source is read as. -/
def Expr.IsRead (e : Expr) : Prop :=
  ∃ settings source s, Script.parseWith settings source = .ok s ∧ s.Holds (.expr e)

/-- The name does not start with a digit. -/
def Lettered (n : Text) : Prop := ¬ ∃ c ∈ n.head?, isDigit c = true

/-- A field in the expression has a name that starts with a digit. -/
def Expr.HasDigitField (e : Expr) : Prop :=
  ∃ p a n, (Node.expr (.member p a n)).Within (.expr e) ∧ ∃ c ∈ n.head?, isDigit c = true

theorem Token.isWhole_x : IsWhole .identifier ['x'] := by
  unfold IsWhole
  decide +kernel

/-- What stands in an assignment is the assignment or stands in its expression. -/
theorem Script.holds_assignment_iff {p : Place} {x : Text} {e : Expr} {n : Node} :
    Script.Holds [.assignment p x e] n ↔
      n = .statement (.assignment p x e) ∨ n.Within (.expr e) := by
  constructor
  · rintro ⟨t, ht, w⟩
    obtain rfl := List.mem_singleton.1 ht
    cases w with
    | self => exact .inl rfl
    | child hc w =>
      obtain rfl := List.mem_singleton.1 hc
      exact .inr w
  · rintro (rfl | w)
    · exact ⟨_, List.mem_singleton_self _, .self _⟩
    · exact ⟨_, List.mem_singleton_self _, .child (List.mem_singleton_self _) w⟩

/-- An expression out of a script of the shape of one that is read, assigned to a name. -/
theorem Script.WellShaped.assignment {s : Script} (ok : s.WellShaped) {e : Expr}
    (h : s.Holds (.expr e)) (p : Place) {x : Text} (hx : Token.IsWhole .identifier x) :
    Script.WellShaped [.assignment p x e] := by
  have inner {n : Node} (w : n.Within (.expr e)) : s.Holds n := by
    obtain ⟨t, ht, k⟩ := h
    exact ⟨t, ht, w.trans k⟩
  refine ⟨?files, ?modifiers, ?names, ?texts, ?numbers⟩
  case files =>
    intro t ht q kind path w
    rcases holds_assignment_iff.1 ⟨t, ht, w⟩ with he | w
    · cases he
    · obtain ⟨u, hu, k⟩ := h
      obtain ⟨rfl, -⟩ := ok.files u hu q kind path (w.trans k)
      cases Node.within_file k
  case modifiers =>
    intro q m t holds
    rcases holds_assignment_iff.1 holds with he | w
    · cases he
    · exact ok.modifiers q m t (inner w)
  case names =>
    intro n holds t ht
    rcases holds_assignment_iff.1 holds with rfl | w
    · cases ht
      exact .inl hx
    · exact ok.names n (inner w) t ht
  case texts =>
    intro q t holds
    rcases holds_assignment_iff.1 holds with he | w
    · cases he
    · exact ok.texts q t (inner w)
  case numbers =>
    intro q v holds
    rcases holds_assignment_iff.1 holds with he | w
    · cases he
    · exact ok.numbers q v (inner w)

namespace Expr.IsRead
variable {e : Expr}

/-- What passes to every construct from those in it holds of an expression that is read. -/
theorem of_formers (h : e.IsRead) {P : Text → Prop} {Q : Node → Prop} (f : Node.Formers P Q)
    (field : ∀ p a n, (Node.expr (.member p a n)).Within (.expr e) → P n) : Q (.expr e) := by
  obtain ⟨settings, source, s, read, holds⟩ := h
  have ok := (Script.wellShaped_of_parseWith read).assignment holds none
    Token.isWhole_x
  refine ok.of_formers f (fun p a n member => ?_) _
    (Script.holds_assignment_iff.2 (.inr (.self _))) (by simp)
  exact field p a n ((Script.holds_assignment_iff.1 member).resolve_left (by simp))

/-- An operand that was read is spelt by its line. -/
theorem spelt (h : e.IsRead) : (Node.expr e).Spelt :=
  h.of_formers Node.Spelt.formers fun _ _ _ _ => trivial

/-- An operand that was read is settled, if no field in it starts with a digit. -/
theorem settled (h : e.IsRead) (fields : ¬ e.HasDigitField) : (Node.expr e).Settled Lettered :=
  h.of_formers Node.Settled.formers fun p a n within digit => fields ⟨p, a, n, within, digit⟩

end Expr.IsRead

/-! ### The line of a formula -/

namespace Sign
variable {P : Text → Prop} {l : Line} {r : Text}

/-- A sign before what spells an operand spells what the sign makes of it. -/
theorem spells (s : Sign) {v : Expr} {ks : List Token}
    (h : Spells (.expr .unary (v.mapPlaces Place.first)) ks) :
    Spells (.expr .unary ((s.apply v).mapPlaces Place.first)) (⟨.symbol, [s.char], 0⟩ :: ks) := by
  cases s <;> exact .signed (by decide) h rfl

/-- A sign lies before what starts with no equals sign. -/
theorem lies (s : Sign) (hr : unequal (l.text ++ r) = true) (h : Lies P l r) :
    Lies P (mark s.char :: l) r := by
  cases s with
  | minus | plus => exact .mark rfl h
  | exclamation => exact .loose (.inr rfl) hr h

theorem unequal_char (s : Sign) (x : Text) : unequal (s.char :: x) = true := by cases s <;> rfl

end Sign

namespace Operand

/-- The tokens of an operand. -/
def line (t : Operand) : Line :=
  t.signs.foldr (fun s l => mark s.1.char :: (if s.2 then none :: l else l)) t.base.line

/-- The line of an operand reads as its text. -/
theorem text_line (t : Operand) : t.line.text = t.text := by
  obtain ⟨signs, base⟩ := t
  induction signs with
  | nil => exact Expr.text_line base
  | cons s signs ih =>
    obtain ⟨s, blank⟩ := s
    simp only [line, text, List.foldr_cons] at ih ⊢
    cases blank <;> simp [ih]

/-- The tokens of an operand spell its value. -/
theorem spells {t : Operand} (h : (Node.expr t.base).Spelt) :
    Spells (.expr .unary (t.value.mapPlaces Place.first)) t.line.tokens := by
  obtain ⟨signs, base⟩ := t
  induction signs with
  | nil => exact h.lift .unary (by decide)
  | cons s signs ih =>
    obtain ⟨s, blank⟩ := s
    have signed := s.spells (ih h)
    cases blank <;> exact signed

/-- The line of an operand lies before what closes it, and no equals sign comes first in it. -/
theorem settled {P : Text → Prop} {t : Operand} (h : (Node.expr t.base).Settled P) :
    (∀ r, closes r = true → Lies P t.line r) ∧ ∀ r, unequal (t.line.text ++ r) = true := by
  obtain ⟨signs, base⟩ := t
  induction signs with
  | nil => exact ⟨h.lies, h.head⟩
  | cons s signs ih =>
    obtain ⟨s, blank⟩ := s
    obtain ⟨lies, head⟩ := ih h
    refine ⟨fun r hr => ?_, fun r => s.unequal_char _⟩
    cases blank with
    | false => exact s.lies (head r) (lies r hr)
    | true => exact s.lies rfl (.blank (lies r hr))

end Operand

namespace Formula
variable {P : Text → Prop}

/-- The tokens of operators and of the operands behind them. -/
def lines (ps : List (BinaryOp × Operand)) : Line :=
  ps.flatMap fun p => none :: some (.symbol, p.1.text) :: none :: p.2.line

/-- The tokens of a formula. -/
def line (f : Formula) : Line := f.first.line ++ lines f.rest

/-- The line of a formula reads as its text. -/
theorem text_line (f : Formula) : f.line.text = f.text := by
  obtain ⟨first, rest⟩ := f
  simp only [line, text, Line.text_append, Operand.text_line, List.append_cancel_left_eq]
  induction rest with
  | nil => rfl
  | cons p rest ih =>
    simp only [lines, List.flatMap_cons, List.cons_append, Line.text_blank, Line.text_token,
      Line.text_append, Operand.text_line, List.append_assoc] at ih ⊢
    rw [ih]

/-- What follows an operand closes it. -/
theorem closes_lines (ps : List (BinaryOp × Operand)) {r : Text} (hr : closes r = true) :
    closes ((lines ps).text ++ r) = true := by
  cases ps with
  | nil => exact hr
  | cons p ps => rfl

/-- Operators with operands between them lie before what closes the last. -/
theorem lies_lines {ps : List (BinaryOp × Operand)}
    (h : ∀ p ∈ ps, (Node.expr p.2.base).Settled P) {r : Text} (hr : closes r = true) :
    Lies P (lines ps) r := by
  induction ps with
  | nil => trivial
  | cons p ps ih =>
    rw [List.forall_mem_cons] at h
    have operand := (Operand.settled h.1).1 _ (closes_lines ps hr)
    exact .blank (.binary p.1 (.append operand (ih h.2)))

/-- The line of a formula lies before what closes it. -/
theorem lies_line {f : Formula} (h : ∀ t ∈ f.operands, (Node.expr t.base).Settled P) {r : Text}
    (hr : closes r = true) : Lies P f.line r := by
  obtain ⟨first, rest⟩ := f
  simp only [operands, List.forall_mem_cons, List.forall_mem_map] at h
  exact .append ((Operand.settled h.1).1 _ (closes_lines rest hr)) (lies_lines h.2 hr)

/-- The tokens of a formula spell the tree that it groups to, at the level of every tier that no
operator of it is looser than. -/
theorem spells_of_groups {c : OperatorChain} {tree : Expr} (groups : c.Groups tree) :
    ∀ {f : Formula}, f.chain = c → (∀ t ∈ f.operands, (Node.expr t.base).Spelt) →
      ∀ n, (∀ p ∈ f.rest, n ≤ p.1.tier) →
        Spells (.expr (.ofTier n) (tree.mapPlaces Place.first)) f.line.tokens := by
  induction groups with
  | operand e =>
    rintro ⟨first, rest⟩ chain spelt n -
    obtain ⟨rfl, none⟩ := OperatorChain.mk.inj chain
    obtain rfl := List.map_eq_nil_iff.1 none
    have operand := Operand.spells (spelt first (by simp [operands]))
    refine Spells.looser (Nat.le_add_right n 4) ?_
    simpa [line, lines, Level.ofTier] using operand
  -- The left side may have operators of the same tier, the right side only tighter ones: they are
  -- spelt at the level of the tier and at the next.
  | @split _ second l r before after o place left right _ _ ihl ihr =>
    rintro ⟨first, rest⟩ chain spelt n tight
    obtain ⟨rfl, rests⟩ := OperatorChain.mk.inj chain
    obtain ⟨us, vs, rfl, rfl, right_rest⟩ := List.map_eq_append_iff.1 rests
    obtain ⟨⟨o, t⟩, ws, rfl, he, rfl⟩ := List.map_eq_cons_iff.1 right_rest
    obtain ⟨rfl, rfl⟩ := Prod.mk.inj he
    simp only [operands, List.map_append, List.map_cons, List.forall_mem_cons,
      List.forall_mem_append] at spelt
    obtain ⟨tier, level, next, accepts⟩ := o.exists_level
    have hl := ihl (f := ⟨first, us⟩) rfl (List.forall_mem_cons.2 ⟨spelt.1, spelt.2.1⟩) o.tier
      fun p hp => left _ (List.mem_map_of_mem hp)
    have hr := ihr (f := ⟨t, ws⟩) rfl (List.forall_mem_cons.2 spelt.2.2) (o.tier + 1)
      fun p hp => right _ (List.mem_map_of_mem hp)
    rw [level] at hl
    rw [next] at hr
    have whole := Spells.operation hl accepts (BinaryOp.ofText?_text o) hr
    rw [Line.place_tokens (Spells.expr_ne_nil hl), ← level] at whole
    refine Spells.looser (tight (o, t) (by simp)) ?_
    simpa [line, lines, Expr.mapPlaces, Place.first] using whole

/-- The tokens of the assignment of a formula. -/
def assignedLine (f : Formula) : Line :=
  Line.name ['x'] :: none :: mark '=' :: none :: (f.line ++ [mark ';'])

theorem text_assignedLine (f : Formula) : f.assignedLine.text = f.assigned := by
  have equals : lit "x = " = ['x', ' ', '=', ' '] := by decide
  simp [assignedLine, assigned, text_line, equals]

/-- The line of the assignment lies before the end of the source. -/
theorem lies_assignedLine {f : Formula} (h : ∀ t ∈ f.operands, (Node.expr t.base).Settled P) :
    Lies P f.assignedLine [] :=
  .name (.inl Token.isWhole_x) rfl (.blank (.loose (.inl rfl) rfl (.blank
    (.append (lies_line h rfl) (.mark rfl trivial)))))

/-- The tokens of the assignment say that the tree of the formula is assigned. -/
theorem says_assignedLine {f : Formula} {tree : Expr} (groups : f.chain.Groups tree)
    (spelt : ∀ t ∈ f.operands, (Node.expr t.base).Spelt) :
    Says (.script [.assignment (some 0) ['x'] (tree.mapPlaces Place.first)])
      f.assignedLine.tokens := by
  have loosest := spells_of_groups groups rfl spelt 0 fun _ _ => Nat.zero_le _
  have said := Says.assignment (a := ⟨.symbol, ['='], 0⟩) (z := ⟨.symbol, [';'], 0⟩)
    (isName_of_isWhole Token.isWhole_x) ⟨rfl, rfl⟩ (.unbound (.unconditional loosest)) ⟨rfl, rfl⟩
  simpa [assignedLine] using Says.ordinary said .emptyScript

end Formula

/-! ### Reading a formula -/

/-- What is an assignment, places aside, is one. -/
theorem Script.eq_assignment_of_mapPlaces {f g : Place → Place} {p : Place} {x : Text} {e : Expr}
    {t : Script}
    (h : [Statement.assignment p x e].map (Statement.mapPlaces f) = t.map (Statement.mapPlaces g)) :
    ∃ q v, t = [.assignment q x v] ∧ v.bare = e.bare := by
  obtain ⟨u, rfl, hu⟩ := List.map_eq_singleton_iff.1 h.symm
  cases u with
  | assignment q y v =>
    simp only [Statement.mapPlaces, Statement.assignment.injEq] at hu
    obtain ⟨-, rfl, he⟩ := hu
    refine ⟨q, v, rfl, ?_⟩
    rw [← Expr.bare_mapPlaces g v, he, Expr.bare_mapPlaces]
  | _ => simp [Statement.mapPlaces] at hu

namespace Script

/-- A formula that is assigned is read as the assignment of the tree that it groups to, and there is
one such tree, places aside. -/
theorem assigned_groups {f : Formula}
    (operands : ∀ t ∈ f.operands, t.base.IsRead ∧ ¬ t.base.HasDigitField) :
    ∃ p v, ReadAs f.assigned [.assignment p ['x'] v] ∧ (∃ tree, f.chain.Groups tree) ∧
      ∀ tree, f.chain.Groups tree → v.bare = tree.bare := by
  obtain ⟨tree, groups⟩ := OperatorChain.exists_groups f.chain.first f.chain.rest
  have lies : Lies (fun _ => False) f.assignedLine [] := by
    have settled := Formula.lies_assignedLine fun t ht =>
      (operands t ht).1.settled (operands t ht).2
    -- What does not stay is a point before a name with a digit in front, and there is none.
    refine settled.stays_or.resolve_right ?_
    rintro ⟨us, kind, vs, -, -, n, m, -, lettered, -, digit, -⟩
    exact lettered digit
  obtain ⟨ks, laid, alike⟩ := Grammar.laidToEnd_of_lies lies
  rw [Formula.text_assignedLine] at laid
  have said := Formula.says_assignedLine groups fun t ht => (operands t ht).1.spelt
  have origin : id none = Option.map (fun _ : Nat => 0) none := rfl
  obtain ⟨t, said', places⟩ := said.alike origin alike
  obtain ⟨p, v, rfl, bare⟩ := eq_assignment_of_mapPlaces places
  refine ⟨p, v, readAs_of_says said' (by simp) laid, ⟨tree, groups⟩, fun other hother => ?_⟩
  calc v.bare = (tree.mapPlaces Place.first).bare := bare
    _ = tree.bare := Expr.bare_mapPlaces _ tree
    _ = other.bare := groups.unique hother

/-- Signs, and a product between two differences: the second difference is the root, and the signs
belong to the operands that they stand before. -/
theorem assigned_groups_differences :
    ∃ p v, ReadAs (lit "x = -b - b * ! b - b;") [.assignment p ['x'] v] ∧
      v.bare = .binary none
        (.binary none (.unary none .negative (.variable none ['b'])) (.operator .sub)
          (.binary none (.variable none ['b']) (.operator .mul)
            (.unary none .not (.variable none ['b']))))
        (.operator .sub) (.variable none ['b']) := by
  have read : parseWith ⟨60, true⟩ (lit "a=b;") =
      .ok [.assignment (some 0) ['a'] (.variable (some 2) ['b'])] := eq_ok_copy (by decide +kernel)
  have isRead : (Expr.variable (some 2) ['b']).IsRead :=
    ⟨_, _, _, read, holds_assignment_iff.2 (.inr (.self _))⟩
  have fields : ¬ (Expr.variable (some 2) ['b']).HasDigitField := by
    rintro ⟨p, a, n, w, -⟩
    cases w with
    | child hc _ => cases hc
  obtain ⟨p, v, readAs, -, only⟩ := assigned_groups
    (f := ⟨⟨[(.minus, false)], .variable (some 2) ['b']⟩,
      [(.operator .sub, ⟨[], .variable (some 2) ['b']⟩),
       (.operator .mul, ⟨[(.exclamation, true)], .variable (some 2) ['b']⟩),
       (.operator .sub, ⟨[], .variable (some 2) ['b']⟩)]⟩)
    (by simp [Formula.operands, isRead, fields])
  have product : OperatorChain.Groups ⟨.variable (some 2) ['b'],
      [(.operator .mul, .unary none .not (.variable (some 2) ['b']))]⟩ _ :=
    @OperatorChain.Groups.split _ _ _ _ [] [] _ none (by simp) (by simp) (.operand _) (.operand _)
  have difference : OperatorChain.Groups ⟨.unary none .negative (.variable (some 2) ['b']),
      [(.operator .sub, .variable (some 2) ['b']),
       (.operator .mul, .unary none .not (.variable (some 2) ['b']))]⟩ _ :=
    @OperatorChain.Groups.split _ _ _ _ [] [_] _ none (by simp) (by simp [BinaryOp.tier])
      (.operand _) product
  have whole := only _ (@OperatorChain.Groups.split _ _ _ _ [_, _] [] _ none
    (by simp [BinaryOp.tier]) (by simp) difference (.operand _))
  exact ⟨p, v, readAs, whole⟩

end Script

end SolidScript
