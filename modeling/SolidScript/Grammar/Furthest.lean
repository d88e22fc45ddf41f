import SolidScript.Grammar.Terminal

/-!
# Grammar — the furthest failure

A match that is refused is explained by the furthest place that any alternative got to and by the
terminals that were missed there, in the order in which they were first missed.

Records combine: the later place wins, and at the same place the terminals of the second follow
those of the first that they do not repeat.

* `Furthest.join_assoc`, `Furthest.join_self_right`: combining is associative, and what has been
  combined once changes nothing when it comes again.
-/

namespace SolidScript

/-- The furthest place reached and the terminals missed there. -/
structure Furthest where
  offset : Nat
  missed : List Terminal
deriving DecidableEq

namespace Furthest

/-- The terminals of the first list, then those of the second that are not among them. -/
def union (a b : List Terminal) : List Terminal := a ++ b.filter (· ∉ a)

/-- The record of two, the first made first. -/
def join (a b : Furthest) : Furthest :=
  if a.offset < b.offset then b
  else if b.offset < a.offset then a
  else ⟨a.offset, union a.missed b.missed⟩

/-- The record with one more terminal missed at a place. -/
def miss (a : Furthest) (offset : Nat) (t : Terminal) : Furthest := a.join ⟨offset, [t]⟩

/-- The record with one more place reached, where nothing in particular was missed. -/
def reach (a : Furthest) (offset : Nat) : Furthest := a.join ⟨offset, []⟩

theorem mem_union {t : Terminal} {a b : List Terminal} : t ∈ union a b ↔ t ∈ a ∨ t ∈ b := by
  simp only [union, List.mem_append, List.mem_filter, decide_eq_true_eq]
  by_cases h : t ∈ a <;> simp [h]

theorem union_assoc (a b c : List Terminal) : union (union a b) c = union a (union b c) := by
  simp only [union, List.append_assoc, List.filter_append, List.filter_filter]
  congr 2
  apply List.filter_congr
  intro t _
  by_cases ha : t ∈ a <;> by_cases hb : t ∈ b <;> simp [ha, hb]

/-- What stands in the first list already adds nothing. -/
theorem union_of_subset {a b : List Terminal} (h : ∀ t ∈ b, t ∈ a) : union a b = a := by
  have : b.filter (· ∉ a) = [] := by
    rw [List.filter_eq_nil_iff]
    intro t ht
    simp [h t ht]
  rw [union, this, List.append_nil]

theorem join_of_lt {a b : Furthest} (h : a.offset < b.offset) : a.join b = b := if_pos h

theorem join_of_gt {a b : Furthest} (h : b.offset < a.offset) : a.join b = a := by
  rw [join, if_neg (by omega), if_pos h]

theorem join_of_eq {a b : Furthest} (h : a.offset = b.offset) :
    a.join b = ⟨a.offset, union a.missed b.missed⟩ := by
  rw [join, if_neg (by omega), if_neg (by omega)]

/-- The place of the record of two is the later of theirs. -/
theorem offset_join (a b : Furthest) : (a.join b).offset = max a.offset b.offset := by
  rcases Nat.lt_trichotomy a.offset b.offset with h | h | h
  · rw [join_of_lt h]; omega
  · rw [join_of_eq h]; change a.offset = _; omega
  · rw [join_of_gt h]; omega

theorem join_assoc (a b c : Furthest) : (a.join b).join c = a.join (b.join c) := by
  rcases Nat.lt_trichotomy a.offset b.offset with h | h | h <;>
    rcases Nat.lt_trichotomy b.offset c.offset with k | k | k
  · rw [join_of_lt h, join_of_lt k, join_of_lt (by omega)]
  · rw [join_of_lt h, join_of_lt (show a.offset < (b.join c).offset by rw [offset_join]; omega)]
  · rw [join_of_lt h, join_of_gt k, join_of_lt h]
  · rw [join_of_lt k, join_of_lt (by rw [offset_join]; omega), join_of_lt (by omega)]
  · have l : a.offset = c.offset := h.trans k
    have left := join_of_eq (a := ⟨a.offset, union a.missed b.missed⟩) (b := c) l
    have right := join_of_eq (a := a) (b := ⟨b.offset, union b.missed c.missed⟩) h
    rw [join_of_eq h, join_of_eq k, left, right, union_assoc]
  · rw [join_of_gt k, join_of_gt (by rw [offset_join]; omega)]
  · rw [join_of_gt h, join_of_lt k]
  · rw [join_of_gt h, join_of_gt (by omega), join_of_gt (by rw [offset_join]; omega)]
  · rw [join_of_gt h, join_of_gt (by omega), join_of_gt k, join_of_gt h]

/-- What has been combined once changes nothing when it comes again. -/
theorem join_self_right (a b : Furthest) : (a.join b).join b = a.join b := by
  rcases Nat.lt_trichotomy a.offset b.offset with h | h | h
  · rw [join_of_lt h, join_of_eq rfl, union_of_subset fun _ ht => ht]
  · rw [join_of_eq h, join_of_eq (by exact h)]
    congr 1
    exact union_of_subset fun t ht => mem_union.2 (.inr ht)
  · rw [join_of_gt h, join_of_gt h]

end Furthest

end SolidScript
