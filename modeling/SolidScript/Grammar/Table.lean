import SolidScript.Grammar.Tree
import SolidScript.Text.Cursor
import Std.Data.TreeMap

/-!
# Grammar — tables of finished matches

What is known of the rules that have been tried: for a rule and a place whether it matches there,
and if so with what trees and up to where.
-/

namespace SolidScript

namespace Rule

/-- The number of a rule. -/
def index (r : Rule) : Nat := r.ctorIdx

/-- How many rules there are. -/
def total : Nat := 67

theorem index_lt (r : Rule) : r.index < total := by cases r <;> decide

theorem index_inj {r s : Rule} (h : r.index = s.index) : r = s := by
  rw [← Rule.ofNat_ctorIdx r, ← Rule.ofNat_ctorIdx s]
  exact congrArg Rule.ofNat h

end Rule

/-- What is known of a rule at a place. -/
inductive Known where
  | matched (trees : List Tree) (next : Cursor)
  | failed

/-- What is known of the rules at the places of a source. -/
structure Table where
  entries : Std.TreeMap Nat Known

namespace Table

/-- Nothing is known. -/
def empty : Table := ⟨∅⟩

/-- One number for a rule and a place. -/
def key (r : Rule) (offset : Nat) : Nat := offset * Rule.total + r.index

/-- What is known of the rule at the place. -/
def find? (t : Table) (r : Rule) (offset : Nat) : Option Known := t.entries[key r offset]?

/-- The table with one thing more. -/
def insert (t : Table) (r : Rule) (offset : Nat) (k : Known) : Table :=
  ⟨t.entries.insert (key r offset) k⟩

/-- A rule and a place can be told from their number. -/
theorem key_inj {r s : Rule} {o p : Nat} (h : key r o = key s p) : r = s ∧ o = p := by
  have hr := r.index_lt
  have hs := s.index_lt
  unfold key at h
  have ho : o = p := by
    rcases Nat.lt_trichotomy o p with l | l | l
    · have := Nat.mul_le_mul_right Rule.total (Nat.succ_le_of_lt l)
      rw [Nat.succ_mul] at this
      omega
    · exact l
    · have := Nat.mul_le_mul_right Rule.total (Nat.succ_le_of_lt l)
      rw [Nat.succ_mul] at this
      omega
  subst ho
  exact ⟨Rule.index_inj (by omega), rfl⟩

@[simp] theorem find?_empty (r : Rule) (o : Nat) : empty.find? r o = none := by
  simp [find?, empty]

theorem find?_insert_self (t : Table) (r : Rule) (o : Nat) (k : Known) :
    (t.insert r o k).find? r o = some k := by
  simp [find?, insert]

theorem find?_insert_of_ne (t : Table) {r s : Rule} {o p : Nat} (k : Known)
    (h : ¬ (r = s ∧ o = p)) : (t.insert r o k).find? s p = t.find? s p := by
  have hk : key r o ≠ key s p := fun e => h (key_inj e)
  simp [find?, insert, Std.TreeMap.getElem?_insert, hk]

end Table

end SolidScript
