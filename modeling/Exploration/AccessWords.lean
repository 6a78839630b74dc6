import Std.Data.HashSet
import Exploration.Traversal.Backlog

/-!
# Access words

Every reachable state with a word that leads to it, drawn one by one from a breadth-first
traversal. A state keeps the word along which it was met first.
-/

namespace Exploration

/-- A state and a word that labels a path to it from an initial state. -/
structure Access (σ ι : Type) where
  state : σ
  word : List ι
  deriving DecidableEq

structure AccessWords {σ ι τ : Type} [DecidableEq σ] [Hashable σ] (M : TransitionSystem σ ι τ)
    (A : List ι) where
  traversal : Traversal M A .breadthFirst (List ι)
  seen : Std.HashSet σ

namespace AccessWords

variable {σ ι τ : Type} [DecidableEq σ] [Hashable σ] {M : TransitionSystem σ ι τ} {A : List ι}

def begin (M : TransitionSystem σ ι τ) (A : List ι) : AccessWords M A :=
  ⟨.begin M A .breadthFirst (List ι), ∅⟩

/-- Schedules a state with its word unless it was seen before. -/
def enroll (w : AccessWords M A) (s : σ) (word : List ι) : AccessWords M A :=
  if s ∈ w.seen then w else ⟨w.traversal.schedule s word, w.seen.insert s⟩

/-- The word a record was scheduled with. -/
def wordOf (w : AccessWords M A) (r : RecordIndex) : List ι :=
  (w.traversal.records[r]?.map (·.data)).getD []

theorem backlog_enroll (w : AccessWords M A) (s : σ) (word : List ι) :
    (w.enroll s word).traversal.backlog = w.traversal.backlog := by
  rw [enroll]
  split
  · rfl
  · exact w.traversal.backlog_schedule s word

/-- Goes on until a state is started, which is given with its word. -/
def next (w : AccessWords M A) : Option (Access σ ι) × AccessWords M A :=
  match _h : w.traversal.next with
  | (none, t) => (none, ⟨t, w.seen⟩)
  | (some (.start r s), t) => (some ⟨s, wordOf ⟨t, w.seen⟩ r⟩, ⟨t, w.seen⟩)
  | (some (.initial s), t) => next (enroll ⟨t, w.seen⟩ s [])
  | (some (.edge r i _ s), t) => next (enroll ⟨t, w.seen⟩ s (wordOf ⟨t, w.seen⟩ r ++ [i]))
  | (some (.finish _ _ _), t) => next ⟨t, w.seen⟩
termination_by w.traversal.backlog
decreasing_by
  · rw [backlog_enroll, Traversal.backlog_next _h rfl]
    exact Nat.lt_succ_self _
  · rw [backlog_enroll, Traversal.backlog_next _h rfl]
    exact Nat.lt_succ_self _
  · rw [Traversal.backlog_next _h rfl]
    exact Nat.lt_succ_self _

end AccessWords

end Exploration
