import SolidScript.Script.Node
import SolidScript.Script.OfTree
import SolidScript.Script.Tail

/-!
# Statements — where an `else` could go

A statement ends open if it ends in a conditional without an `else`: one that comes after it would
belong there.  A construct is sealed if no conditional with an `else` that stands in it has a first
branch that ends open.

* `Statement.EndsOpen`: the statement ends in a conditional without an `else`.
* `Statement.Dangles`: it does so outside of the bodies of modules.
* `Node.Sealed`: every `else` in the construct belongs to the nearest `if`.
-/

namespace SolidScript

namespace Statement

/-- The statement ends in a conditional without an `else`. -/
def EndsOpen (s : Statement) : Prop := ∃ u, s.Leads u ∧ u.IsOpen

/-- A statement ends open if it is a conditional without an `else`, or what it ends in ends open. -/
theorem endsOpen_iff {s : Statement} :
    s.EndsOpen ↔ s.IsOpen ∨ ∃ t, s.last? = some t ∧ t.EndsOpen := by
  constructor
  · rintro ⟨u, h, hu⟩
    cases h with
    | here => exact .inl hu
    | onward h k => exact .inr ⟨_, h, u, k, hu⟩
  · rintro (h | ⟨t, h, u, k, hu⟩)
    · exact ⟨s, .here s, h⟩
    · exact ⟨u, .onward h k, hu⟩

/-- Anything else that ends in a statement ends open as that one does. -/
theorem endsOpen_of_last {s t : Statement} (hs : ¬ s.IsOpen) (h : s.last? = some t) :
    s.EndsOpen ↔ t.EndsOpen := by
  rw [endsOpen_iff, h]
  simp [hs]

/-- Anything else that ends in no statement does not end open. -/
theorem not_endsOpen_of_last {s : Statement} (hs : ¬ s.IsOpen) (h : s.last? = none) :
    ¬ s.EndsOpen := by
  rw [endsOpen_iff, h]
  simp [hs]

variable {p : Place} {n : Text} {as : List Argument} {ps : List Parameter} {e : Expr}
  {a b s : Statement}

@[simp] theorem not_endsOpen_empty : ¬ (empty p).EndsOpen := not_endsOpen_of_last id rfl

@[simp] theorem not_endsOpen_block {ss : List Statement} : ¬ (block p ss).EndsOpen :=
  not_endsOpen_of_last id rfl

@[simp] theorem not_endsOpen_functionDefinition : ¬ (functionDefinition p n ps e).EndsOpen :=
  not_endsOpen_of_last id rfl

@[simp] theorem not_endsOpen_assignment : ¬ (assignment p n e).EndsOpen :=
  not_endsOpen_of_last id rfl

@[simp] theorem not_endsOpen_file {k : Reference} : ¬ (file p k n).EndsOpen :=
  not_endsOpen_of_last id rfl

/-- A definition of a module ends as its body does. -/
@[simp] theorem endsOpen_moduleDefinition :
    (moduleDefinition p n ps s).EndsOpen ↔ s.EndsOpen := endsOpen_of_last id rfl

@[simp] theorem endsOpen_call {m : Option Modifier} : (call p n as s m).EndsOpen ↔ s.EndsOpen :=
  endsOpen_of_last id rfl

@[simp] theorem endsOpen_loop {m : Option Modifier} : (loop p as s m).EndsOpen ↔ s.EndsOpen :=
  endsOpen_of_last id rfl

@[simp] theorem endsOpen_modified {m : Modifier} : (modified p m s).EndsOpen ↔ s.EndsOpen :=
  endsOpen_of_last id rfl

/-- A conditional without an `else` ends open. -/
@[simp] theorem endsOpen_conditional : (conditional p e a none).EndsOpen :=
  ⟨_, .here _, trivial⟩

/-- A conditional with an `else` ends as its second branch does. -/
@[simp] theorem endsOpen_alternative :
    (conditional p e a (some b)).EndsOpen ↔ b.EndsOpen := endsOpen_of_last id rfl

/-- A modifier does not change how a statement ends. -/
@[simp] theorem endsOpen_modify {m : Modifier} :
    (OfTree.modify p m s).EndsOpen ↔ s.EndsOpen := by
  unfold OfTree.modify
  split <;> simp

/-- The statement ends open, and not in the body of a module. -/
inductive Dangles : Statement → Prop where
  | conditional (p : Place) (e : Expr) (a : Statement) : Dangles (.conditional p e a none)
  | alternative (p : Place) (e : Expr) (a : Statement) {b : Statement} (h : Dangles b) :
      Dangles (.conditional p e a (some b))
  | modified (p : Place) (m : Modifier) {s : Statement} (h : Dangles s) :
      Dangles (.modified p m s)
  | loop (p : Place) (as : List Argument) (m : Option Modifier) {s : Statement} (h : Dangles s) :
      Dangles (.loop p as s m)
  | call (p : Place) (n : Text) (as : List Argument) (m : Option Modifier) {s : Statement}
      (h : Dangles s) : Dangles (.call p n as s m)

/-- A statement that dangles ends open. -/
theorem Dangles.endsOpen {s : Statement} (h : s.Dangles) : s.EndsOpen := by
  induction h <;> simp_all

/-- A conditional with an `else` dangles if its second branch does. -/
@[simp] theorem dangles_alternative :
    (conditional p e a (some b)).Dangles ↔ b.Dangles :=
  ⟨fun h => by cases h; assumption, .alternative p e a⟩

@[simp] theorem dangles_modified {m : Modifier} : (modified p m s).Dangles ↔ s.Dangles :=
  ⟨fun h => by cases h; assumption, .modified p m⟩

@[simp] theorem dangles_loop {m : Option Modifier} : (loop p as s m).Dangles ↔ s.Dangles :=
  ⟨fun h => by cases h; assumption, .loop p as m⟩

@[simp] theorem dangles_call {m : Option Modifier} : (call p n as s m).Dangles ↔ s.Dangles :=
  ⟨fun h => by cases h; assumption, .call p n as m⟩

/-- A modifier does not change whether a statement dangles. -/
@[simp] theorem dangles_modify {m : Modifier} :
    (OfTree.modify p m s).Dangles ↔ s.Dangles := by
  unfold OfTree.modify
  split <;> simp

end Statement

namespace Node

/-- Every `else` in the construct belongs to the nearest `if`: no first branch of a conditional with
an `else` ends open. -/
def Sealed (n : Node) : Prop :=
  ∀ (p : Place) (e : Expr) (a b : Statement),
    (statement (.conditional p e a (some b))).Within n → ¬ a.EndsOpen

/-- A construct is sealed if everything in it is, and it is no conditional whose first branch ends
open before an `else`. -/
theorem sealed_iff {n : Node} :
    n.Sealed ↔ (∀ c ∈ n.children, c.Sealed) ∧
      ∀ (p : Place) (e : Expr) (a b : Statement),
        n = statement (.conditional p e a (some b)) → ¬ a.EndsOpen := by
  constructor
  · intro h
    refine ⟨fun c hc p e a b hw => h p e a b (.child hc hw), ?_⟩
    rintro p e a b rfl
    exact h p e a b (.self _)
  · rintro ⟨hc, hn⟩ p e a b hw
    cases hw with
    | self => exact hn p e a b rfl
    | child h hw => exact hc _ h p e a b hw

/-- Only in statements stand statements. -/
theorem not_within_of_ne_statement {m n : Node} (h : m.Within n) (hn : ∀ s, n ≠ statement s) :
    ∀ s, m ≠ statement s := by
  induction h with
  | self => exact hn
  | @child n c hc _ ih =>
    refine ih fun s hs => ?_
    subst hs
    cases n with
    | expr e =>
      cases e <;> simp only [children, ofExpr, List.mem_append, List.mem_cons, List.mem_map,
        List.not_mem_nil, reduceCtorEq, and_false, exists_false, or_self] at hc
    | argument a =>
      cases a
      simp [children] at hc
    | parameter p => simp [children] at hc
    | statement t => exact hn t rfl

/-- Whatever is no statement is sealed. -/
theorem sealed_of_ne_statement {n : Node} (hn : ∀ s, n ≠ statement s) : n.Sealed :=
  fun _ _ _ _ hw => absurd rfl (not_within_of_ne_statement hw hn _)

@[simp] theorem sealed_expr {e : Expr} : (expr e).Sealed := sealed_of_ne_statement (by simp)

@[simp] theorem sealed_argument {a : Argument} : (argument a).Sealed :=
  sealed_of_ne_statement (by simp)

@[simp] theorem sealed_parameter {p : Parameter} : (parameter p).Sealed :=
  sealed_of_ne_statement (by simp)

variable {p : Place} {n : Text} {as : List Argument} {ps : List Parameter} {e : Expr}
  {a b s : Statement}

@[simp] theorem sealed_empty : (statement (.empty p)).Sealed := by
  rw [sealed_iff]
  simp [children, ofStatement]

@[simp] theorem sealed_file {k : Reference} : (statement (.file p k n)).Sealed := by
  rw [sealed_iff]
  simp [children, ofStatement]

@[simp] theorem sealed_functionDefinition : (statement (.functionDefinition p n ps e)).Sealed := by
  rw [sealed_iff]
  simp only [children, ofStatement, List.mem_append, List.mem_map, List.mem_singleton]
  refine ⟨?_, by simp⟩
  rintro c (⟨q, -, rfl⟩ | rfl) <;> simp

@[simp] theorem sealed_assignment : (statement (.assignment p n e)).Sealed := by
  rw [sealed_iff]
  simp [children, ofStatement]

@[simp] theorem sealed_block {ss : List Statement} :
    (statement (.block p ss)).Sealed ↔ ∀ s ∈ ss, (statement s).Sealed := by
  rw [sealed_iff]
  simp [children, ofStatement]

@[simp] theorem sealed_moduleDefinition :
    (statement (.moduleDefinition p n ps s)).Sealed ↔ (statement s).Sealed := by
  rw [sealed_iff]
  simp [children, ofStatement, or_imp, forall_and]

@[simp] theorem sealed_call {m : Option Modifier} :
    (statement (.call p n as s m)).Sealed ↔ (statement s).Sealed := by
  rw [sealed_iff]
  simp [children, ofStatement, or_imp, forall_and]

@[simp] theorem sealed_loop {m : Option Modifier} :
    (statement (.loop p as s m)).Sealed ↔ (statement s).Sealed := by
  rw [sealed_iff]
  simp [children, ofStatement, or_imp, forall_and]

@[simp] theorem sealed_modified {m : Modifier} :
    (statement (.modified p m s)).Sealed ↔ (statement s).Sealed := by
  rw [sealed_iff]
  simp [children, ofStatement]

/-- A conditional without an `else` is sealed if its branch is. -/
@[simp] theorem sealed_conditional :
    (statement (.conditional p e a none)).Sealed ↔ (statement a).Sealed := by
  rw [sealed_iff]
  simp [children, ofStatement]

/-- A conditional with an `else` is sealed if its branches are and the first does not end open. -/
@[simp] theorem sealed_alternative :
    (statement (.conditional p e a (some b))).Sealed ↔
      (statement a).Sealed ∧ (statement b).Sealed ∧ ¬ a.EndsOpen := by
  rw [sealed_iff]
  simp only [children, ofStatement, Option.toList_some, List.map_cons, List.map_nil,
    List.forall_mem_cons, sealed_expr, true_and, List.not_mem_nil, false_implies, implies_true,
    and_true, and_assoc]
  refine and_congr_right fun _ => and_congr_right fun _ => ⟨fun h => h _ _ _ _ rfl, ?_⟩
  rintro h _ _ _ _ ⟨⟩
  exact h

/-- A modifier does not change whether a statement is sealed. -/
@[simp] theorem sealed_modify {m : Modifier} :
    (statement (OfTree.modify p m s)).Sealed ↔ (statement s).Sealed := by
  unfold OfTree.modify
  split <;> simp

end Node

end SolidScript
