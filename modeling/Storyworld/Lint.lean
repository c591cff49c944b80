import Storyworld.Settings
import Storyworld.Tree

namespace Storyworld

/-! Warnings about sources that are valid and yet probably not what was meant. -/

/-- A warning and the region it is about. -/
structure Lint where
  message : String
  span : Span
deriving DecidableEq, Repr

namespace Lint

/-- How a log shows a warning. -/
def display (l : Lint) : String :=
  s!"warning: {l.message} at {l.span.label}"

/-- The warning about a bare room list. -/
def bareInRooms (span : Span) : Lint :=
  ⟨"bare `in rooms` follows an `ambient` without rooms; " ++
    "did you mean `ambient ... in rooms ...`?", span⟩

/-- Whether a room list was most likely meant for the ambient spinner in front of it. -/
def isStrayPair (before after : Node) : Bool :=
  before.rule = .condAmbient && !before.has .idList && after.rule = .condInRooms

/-- The warnings about the neighbours in a list of conditions. -/
def pairs : List Node → List Lint
  | a :: b :: more =>
    (if isStrayPair a b then [bareInRooms b.span] else []) ++ pairs (b :: more)
  | _ => []

/-- The warnings about the members of a group. -/
def ofGroup (n : Node) : List Lint :=
  if n.rule = .condAny || n.rule = .condAll then pairs n.nodes else []

mutual

/-- The warnings about a construct: its own, then those of its parts. -/
def ofNode : Node → List Lint
  | .mk r s cs => ofGroup (.mk r s cs) ++ ofParts cs

def ofParts : List Element → List Lint
  | [] => []
  | c :: cs => ofPart c ++ ofParts cs

def ofPart : Element → List Lint
  | .node n => ofNode n
  | .token _ => []

end

/-- The warnings about a tree, as far as they are wanted. -/
def check (settings : Settings) (tree : Tree) : List Lint :=
  if settings.lintBareInRooms then ofNode tree.root else []

end Lint

end Storyworld
