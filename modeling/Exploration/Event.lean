/-!
# Events

What a traversal reports while it goes through a system, and the indices it gives to the states
it was told to explore.
-/

namespace Exploration

/-- The place of a record in the order of scheduling. -/
abbrev RecordIndex := Nat

/-- The transition along which a finished state is left for the one below it. -/
structure Backtrack (ι τ : Type) where
  parent : RecordIndex
  letter : ι
  transition : τ
  deriving DecidableEq

inductive Event (σ ι τ : Type) where
  | initial (state : σ)
  | start (record : RecordIndex) (state : σ)
  | edge (source : RecordIndex) (letter : ι) (transition : τ) (target : σ)
  | finish (record : RecordIndex) (state : σ) (backtrack : Option (Backtrack ι τ))
  deriving DecidableEq

namespace Event

variable {σ ι τ : Type}

/-- The state an event is about; for an edge it is the one the edge leads to. -/
def state : Event σ ι τ → σ
  | initial s => s
  | start _ s => s
  | edge _ _ _ s => s
  | finish _ s _ => s

/-- The state an event offers for scheduling. -/
def offer? : Event σ ι τ → Option σ
  | initial s => some s
  | edge _ _ _ s => some s
  | start _ _ => none
  | finish _ _ _ => none

def isStart : Event σ ι τ → Bool
  | start _ _ => true
  | initial _ => false
  | edge _ _ _ _ => false
  | finish _ _ _ => false

end Event

end Exploration
