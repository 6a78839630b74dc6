import Exploration.Cursor
import Exploration.System

/-!
# Visits

A visit is one exploration of a state, planned or under way: its label, whether it was started,
and its place in the walk through the letters and their transitions. The place is kept in the
visit, so a state can be left while others are explored and resumed where it stopped.
-/

namespace Exploration

structure Visit (σ ι τ κ : Type) where
  label : κ
  state : σ
  place : Cursor ι τ
  started : Bool := false
  /-- The transition the walk gave last. -/
  last : Option (ι × τ) := none

namespace Visit

variable {σ ι τ κ : Type}

/-- A visit that was not started. -/
def planned (A : List ι) (label : κ) (s : σ) : Visit σ ι τ κ :=
  ⟨label, s, ⟨A, none⟩, false, none⟩

def start (v : Visit σ ι τ κ) : Visit σ ι τ κ := { v with started := true }

/-- The next transition of the state, in the order of the letters. -/
def next (M : TransitionSystem σ ι τ) (v : Visit σ ι τ κ) : Option (ι × τ) × Visit σ ι τ κ :=
  let (x, c) := v.place.next (M.transitions v.state)
  (x, { v with place := c, last := x })

/-- Drops the remaining transitions of the current letter. -/
def skipLetter (v : Visit σ ι τ κ) : Visit σ ι τ κ := { v with place := v.place.skipRow }

/-- Drops all remaining transitions. -/
def skipAll (v : Visit σ ι τ κ) : Visit σ ι τ κ := { v with place := v.place.stop }

/-- The transitions still to come. -/
def pending (M : TransitionSystem σ ι τ) (v : Visit σ ι τ κ) : List (ι × τ) :=
  v.place.toList (M.transitions v.state)

/-- The steps a started visit can still take: its transitions and its end. -/
def steps (M : TransitionSystem σ ι τ) (v : Visit σ ι τ κ) : Nat :=
  if v.started then (v.pending M).length + 1 else 0

@[simp] theorem pending_planned (M : TransitionSystem σ ι τ) (A : List ι) (label : κ) (s : σ) :
    (planned A label s : Visit σ ι τ κ).pending M = M.outgoing A s := rfl

@[simp] theorem steps_planned (M : TransitionSystem σ ι τ) (A : List ι) (label : κ) (s : σ) :
    (planned A label s : Visit σ ι τ κ).steps M = 0 := rfl

/-- A visit takes its transitions from the head of those to come, and keeps label, state and
mark. -/
theorem next_of_some {M : TransitionSystem σ ι τ} {v u : Visit σ ι τ κ} {p : ι × τ}
    (h : v.next M = (some p, u)) :
    v.pending M = p :: u.pending M ∧ u.label = v.label ∧ u.state = v.state ∧
      u.started = v.started ∧ u.last = some p := by
  cases hc : v.place.next (M.transitions v.state) with
  | mk x c =>
    simp only [next, hc, Prod.mk.injEq] at h
    obtain ⟨rfl, rfl⟩ := h
    exact ⟨Cursor.toList_of_next_eq_some hc, rfl, rfl, rfl, rfl⟩

theorem pending_of_none {M : TransitionSystem σ ι τ} {v u : Visit σ ι τ κ}
    (h : v.next M = (none, u)) : v.pending M = [] :=
  Cursor.toList_of_next_eq_none (congrArg Prod.fst h)

theorem next_of_pending_cons {M : TransitionSystem σ ι τ} {v : Visit σ ι τ κ} {p : ι × τ}
    {ps : List (ι × τ)} (h : v.pending M = p :: ps) :
    ∃ u, v.next M = (some p, u) ∧ u.pending M = ps := by
  cases hn : v.next M with
  | mk q u =>
    cases q with
    | none => simp [pending_of_none hn] at h
    | some q =>
      obtain ⟨rfl, rfl⟩ := List.cons.inj ((next_of_some hn).1.symm.trans h)
      exact ⟨u, rfl, rfl⟩

theorem next_of_pending_nil {M : TransitionSystem σ ι τ} {v : Visit σ ι τ κ}
    (h : v.pending M = []) : ∃ u, v.next M = (none, u) := by
  cases hn : v.next M with
  | mk q u =>
    cases q with
    | none => exact ⟨u, rfl⟩
    | some q => simp [(next_of_some hn).1] at h

theorem steps_of_next {M : TransitionSystem σ ι τ} {v u : Visit σ ι τ κ} {p : ι × τ}
    (hs : v.started = true) (h : v.next M = (some p, u)) : v.steps M = u.steps M + 1 := by
  obtain ⟨hp, -, -, hu, -⟩ := next_of_some h
  simp [steps, hs, hu, hp]

theorem steps_of_none {M : TransitionSystem σ ι τ} {v u : Visit σ ι τ κ}
    (hs : v.started = true) (h : v.next M = (none, u)) : v.steps M = 1 := by
  simp [steps, hs, pending_of_none h]

end Visit

end Exploration
