/-!
# Transition systems

A system lists its initial states, the transitions that leave a state on a letter, and the
state each transition leads to. It has no alphabet of its own: whoever explores it brings one,
so a part or a reordering of the letters can be explored. States are never enumerated, and
there may be infinitely many of them.
-/

namespace Exploration

structure TransitionSystem (σ ι τ : Type) where
  initial : List σ
  transitions : σ → ι → List τ
  successor : τ → σ

namespace TransitionSystem

variable {σ ι τ : Type}

/-- The labelled transitions of a state, letter by letter. -/
def outgoing (M : TransitionSystem σ ι τ) (A : List ι) (s : σ) : List (ι × τ) :=
  A.flatMap fun i => (M.transitions s i).map (i, ·)

theorem mem_outgoing {M : TransitionSystem σ ι τ} {A : List ι} {s : σ} {i : ι} {x : τ} :
    (i, x) ∈ M.outgoing A s ↔ i ∈ A ∧ x ∈ M.transitions s i := by
  simp [outgoing]

/-- The system given by a list of labelled edges; a transition is the place of its edge. -/
def ofEdges [DecidableEq σ] [DecidableEq ι] (initial : List σ) (edges : Array (σ × ι × σ)) :
    TransitionSystem σ ι (Fin edges.size) :=
  let places := List.finRange edges.size
  { initial
    transitions := fun s i => places.filter fun k => edges[k].1 = s ∧ edges[k].2.1 = i
    successor := fun k => edges[k].2.2 }

theorem mem_transitions_ofEdges [DecidableEq σ] [DecidableEq ι] {initial : List σ}
    {edges : Array (σ × ι × σ)} {s : σ} {i : ι} {k : Fin edges.size} :
    k ∈ (ofEdges initial edges).transitions s i ↔ edges[k].1 = s ∧ edges[k].2.1 = i := by
  simp [ofEdges]

end TransitionSystem

/-- A system that answers, for a state and a letter, with at most one transition. Unless it
says otherwise that is the first of those listed. -/
structure DeterministicSystem (σ ι τ : Type) extends TransitionSystem σ ι τ where
  transition : σ → ι → Option τ := fun s i => (transitions s i).head?

/-- The state reached from `s` on the letter `i`. -/
def DeterministicSystem.step {σ ι τ : Type} (D : DeterministicSystem σ ι τ) (s : σ) (i : ι) :
    Option σ :=
  (D.transition s i).map D.successor

/-- Reads a system through the first of its transitions. -/
def TransitionSystem.first {σ ι τ : Type} (M : TransitionSystem σ ι τ) :
    DeterministicSystem σ ι τ :=
  { M with }

end Exploration
