import Exploration.Event

/-!
# Events of a search

What a search reports. Its events name records where those of a traversal name states, and every
edge has a kind.
-/

namespace Exploration

/-- How an edge lies in the forest of discoveries. -/
inductive EdgeKind where
  /-- The edge discovered its target. -/
  | tree
  /-- The edge leads to a state that is being explored. -/
  | back
  /-- The edge leads to a state discovered after its source. -/
  | forward
  /-- The edge leads to a state discovered elsewhere. -/
  | cross
  deriving DecidableEq, Inhabited

namespace Search

inductive Event (ι τ : Type) where
  | initial (record : RecordIndex)
  | start (record : RecordIndex)
  | edge (kind : EdgeKind) (source : RecordIndex) (letter : ι) (transition : τ)
      (target : RecordIndex)
  | finish (record : RecordIndex) (backtrack : Option (Backtrack ι τ))
  deriving DecidableEq

namespace Event

/-- What sort of thing an event reports. -/
inductive Kind where
  | initial
  | start
  | finish
  | edge (kind : EdgeKind)
  deriving DecidableEq

variable {ι τ : Type}

def kind : Event ι τ → Kind
  | initial _ => .initial
  | start _ => .start
  | finish _ _ => .finish
  | edge k _ _ _ _ => .edge k

/-- The record an event is about; for an edge it is the source. -/
def record : Event ι τ → RecordIndex
  | initial r => r
  | start r => r
  | finish r _ => r
  | edge _ r _ _ _ => r

end Event

end Search

end Exploration
