import Storyworld.Document
import Storyworld.Goal.Shape
import Storyworld.Item.Shape
import Storyworld.Log
import Storyworld.Npc.Shape
import Storyworld.Room.Shape
import Storyworld.Spinner.Shape
import Storyworld.Trigger.Shape

namespace Storyworld

/-! The document a tree stands for. Every definition is built on its own, and one with a fault in it
is left out. -/

namespace Shape

/-- A definition in which at most `limit` schedules and condition groups lie inside one another. -/
def definition (limit : Nat) (n : Node) : Collecting Definition := do
  match n.rule with
  | .setDecl => return .roomSet (← roomSet n)
  | .roomDef => return .room (← room n)
  | .itemDef => return .item (← item n)
  | .npcDef => return .npc (← npc n)
  | .triggerDef => return .trigger (← trigger limit n)
  | .spinnerDef => return .spinner (← spinner n)
  | .goalDef => return .goal (← goal n)
  | _ => throw (n.misplaced "definition")

end Shape

/-- What building gives: the definitions without a fault, the faults of the others, and the log. -/
structure Built where
  definitions : List Definition := []
  faults : List ShapeFault := []
  log : List Log.Entry := []

namespace Built

/-- Puts two results one behind the other. -/
def append (a b : Built) : Built :=
  ⟨a.definitions ++ b.definitions, a.faults ++ b.faults, a.log ++ b.log⟩

instance : Append Built :=
  ⟨append⟩

/-- Builds one definition. -/
def ofNode (limit : Nat) (n : Node) : Built :=
  match Shape.definition limit n [] with
  | .ok d [] => { definitions := [d] }
  | .ok d faults => { faults, log := [.droppedDefinition d.span] }
  | .error fault faults => { faults := faults ++ [fault] }

/-- Builds definitions one by one. -/
def ofNodes (limit : Nat) : List Node → Built
  | [] => {}
  | n :: ns => ofNode limit n ++ ofNodes limit ns

/-- Builds the definitions of a tree. -/
def ofTree (settings : Settings) (tree : Tree) : Built :=
  let built := ofNodes settings.maxNesting tree.root.nodes
  { built with log := built.log ++ [.built built.definitions.length built.faults.length] }

end Built

end Storyworld
