import Exploration.Tour

/-!
# Settings of a tour

The order and the limit of a tour as one value.
-/

namespace Exploration

structure Tour.Settings where
  order : Order := .breadthFirst
  /-- The greatest number of states taken on; `none` means all. -/
  limit : Option Nat := none
  deriving DecidableEq, Inhabited

namespace Tour.Settings

/-- The last limit given counts. -/
def withLimit (c : Settings) (limit : Nat) : Settings := ⟨c.order, some limit⟩

/-- A tour of at most `n` steps with these settings. -/
def explore {σ ι τ δ ν : Type} (c : Settings) (g : Guide σ ι τ δ ν)
    (M : TransitionSystem σ ι τ) (A : List ι) (m : ν) (n : Nat) : Option (Outcome ν) :=
  Tour.explore g M A c.order c.limit m n

end Tour.Settings

end Exploration
