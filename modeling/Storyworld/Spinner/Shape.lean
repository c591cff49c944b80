import Storyworld.Action.Shape
import Storyworld.Spinner

namespace Storyworld.Shape

/-! Spinners out of their nodes. -/

def wedge (n : Node) : Except ShapeFault Wedge := do
  if n.rule ≠ .wedge then throw (n.misplaced "wedge")
  n.parts do
    let text ← string "wedge text"
    let width ← width?
    return { text, width, span := n.span }

/-- A spinner has to have a wedge. -/
def spinner (n : Node) : Except ShapeFault Spinner := do
  let (id, rest) ← n.head (wordOrString "spinner id")
  let wedges ← (Element.nodes rest).mapM wedge
  if wedges.isEmpty then throw (.empty "spinner wedges" n.span)
  return { id := ⟨id⟩, wedges, span := n.span }

end Storyworld.Shape
