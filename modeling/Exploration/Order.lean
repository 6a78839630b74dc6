import Exploration.Error

/-!
# Traversal orders

Breadth-first explores what was found first, depth-first what was found last. An order is read
from its names, in which the case of ASCII letters does not matter and other letters never
match.
-/

namespace Exploration

inductive Order where
  | breadthFirst
  | depthFirst
  deriving DecidableEq, Inhabited

namespace Order

/-- The name an order is shown by. -/
def name : Order → String
  | breadthFirst => "breadth-first"
  | depthFirst => "depth-first"

/-- The names an order is read from. -/
def names : Order → List String
  | breadthFirst => ["bfs", "breadth-first", "breadth_first"]
  | depthFirst => ["dfs", "depth-first", "depth_first"]

def ofName (text : String) : Except Error Order :=
  if text.toLower ∈ names breadthFirst then .ok breadthFirst
  else if text.toLower ∈ names depthFirst then .ok depthFirst
  else .error (.unknownOrder text)

theorem names_disjoint {n : String} (h : n ∈ names breadthFirst) : n ∉ names depthFirst := by
  revert n
  decide

/-- A name is read as the order that has it among its names. -/
theorem ofName_eq_ok_iff {text : String} {o : Order} :
    ofName text = .ok o ↔ text.toLower ∈ o.names := by
  rw [ofName]
  cases o
  · split
    · simp_all
    · split <;> simp_all
  · split
    · next h => simpa using names_disjoint h
    · split <;> simp_all

/-- Every other name is refused, and the refusal carries it unchanged. -/
theorem ofName_eq_error_iff {text : String} {e : Error} :
    ofName text = .error e ↔ (∀ o : Order, text.toLower ∉ o.names) ∧ e = .unknownOrder text := by
  constructor
  · intro h
    refine ⟨fun o ho => ?_, ?_⟩
    · rw [ofName_eq_ok_iff.2 ho] at h
      cases h
    · rw [ofName] at h
      split at h
      · cases h
      · split at h
        · cases h
        · exact (Except.error.inj h).symm
  · rintro ⟨h, rfl⟩
    simp [ofName, h]

theorem ofName_name (o : Order) : ofName o.name = .ok o :=
  ofName_eq_ok_iff.2 (by cases o <;> decide +kernel)

end Order

end Exploration
