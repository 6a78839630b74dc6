/-!
# Colors

A state that was met is white until it is started, gray while its transitions are explored and
black afterwards. A color only moves forward.
-/

namespace Exploration

inductive Color where
  | white
  | gray
  | black
  deriving DecidableEq, Inhabited

namespace Color

def rank : Color → Nat
  | white => 0
  | gray => 1
  | black => 2

/-- Moves to `next` unless that is a step back. -/
def advance (c next : Color) : Color := if c.rank < next.rank then next else c

theorem rank_injective {c d : Color} (h : c.rank = d.rank) : c = d := by
  cases c <;> cases d <;> simp_all [rank]

theorem rank_advance (c d : Color) : (c.advance d).rank = max c.rank d.rank := by
  rw [advance]
  split <;> omega

theorem black_advance (c : Color) : black.advance c = black := by
  cases c <;> rfl

theorem rank_le_advance (c d : Color) : c.rank ≤ (c.advance d).rank := by
  rw [rank_advance]
  exact Nat.le_max_left _ _

end Color

end Exploration
