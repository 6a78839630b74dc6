import Exploration.Search.Backlog

/-!
# States in the order of a search

The reachable states, each once, in the order in which a search starts them, drawn one by one
with `nextState`.
-/

namespace Exploration

/-- A search that keeps nothing but the states. -/
abbrev States {σ ι τ : Type} [DecidableEq σ] [Hashable σ] (M : TransitionSystem σ ι τ)
    (A : List ι) (o : Order) : Type := Search M A o Unit

/-- Searches on until a state is started. -/
def Search.nextState {σ ι τ δ : Type} [DecidableEq σ] [Hashable σ] [Inhabited δ]
    {M : TransitionSystem σ ι τ} {A : List ι} {o : Order} (s : Search M A o δ) :
    Option σ × Search M A o δ :=
  match _h : s.next with
  | (none, s) => (none, s)
  | (some (.start r), s) => ((s.record? r).map (·.state), s)
  | (some (.initial _), s) => s.nextState
  | (some (.edge _ _ _ _ _), s) => s.nextState
  | (some (.finish _ _), s) => s.nextState
termination_by s.traversal.backlog
decreasing_by
  all_goals
    have := backlog_next _h (by simp [Event.kind])
    omega

end Exploration
