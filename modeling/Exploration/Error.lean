import Exploration.Text.Graphic
import Exploration.Text.Quoted

/-!
# Errors

What can go wrong when an exploration is steered or an order is named.
-/

namespace Exploration

inductive Error where
  /-- A skip was asked for while no state was being explored. -/
  | idle
  /-- No order is called `name`. -/
  | unknownOrder (name : String)
  deriving DecidableEq

/-- The text shown to the user; a name that was not understood is quoted. -/
def Error.message : Error → String
  | idle => "no state is currently being explored"
  | unknownOrder name =>
    "unknown traversal order: " ++ String.ofList (Text.quote Text.isGraphic name.toList)

end Exploration
