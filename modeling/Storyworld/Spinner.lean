import Storyworld.Id
import Storyworld.Span

namespace Storyworld

/-! Spinners pick one of several texts at random. -/

/-- One outcome and its weight beside the others. -/
structure Wedge where
  text : String
  width : Option UInt32
  span : Span
deriving DecidableEq, Repr

structure Spinner where
  id : Id .spinner
  wedges : List Wedge
  span : Span
deriving DecidableEq, Repr

end Storyworld
