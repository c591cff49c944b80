import Storyworld.Goal
import Storyworld.Npc
import Storyworld.Room
import Storyworld.Spinner
import Storyworld.Trigger

namespace Storyworld

/-! A world as its author wrote it down. -/

inductive Definition where
  | roomSet (set : RoomSet)
  | room (room : Room)
  | item (item : Item)
  | npc (npc : Npc)
  | trigger (trigger : Trigger)
  | spinner (spinner : Spinner)
  | goal (goal : Goal)

namespace Definition

/-- Where the definition stands. -/
def span : Definition → Span
  | roomSet d => d.span
  | room d => d.span
  | item d => d.span
  | npc d => d.span
  | trigger d => d.span
  | spinner d => d.span
  | goal d => d.span

end Definition

/-- The definitions of a source in their order, and where its comments are. -/
structure Document where
  definitions : List Definition := []
  comments : List Span := []

namespace Document

def roomSets (d : Document) : List RoomSet :=
  d.definitions.filterMap fun | .roomSet x => some x | _ => none

def rooms (d : Document) : List Room :=
  d.definitions.filterMap fun | .room x => some x | _ => none

def items (d : Document) : List Item :=
  d.definitions.filterMap fun | .item x => some x | _ => none

def npcs (d : Document) : List Npc :=
  d.definitions.filterMap fun | .npc x => some x | _ => none

def triggers (d : Document) : List Trigger :=
  d.definitions.filterMap fun | .trigger x => some x | _ => none

def spinners (d : Document) : List Spinner :=
  d.definitions.filterMap fun | .spinner x => some x | _ => none

def goals (d : Document) : List Goal :=
  d.definitions.filterMap fun | .goal x => some x | _ => none

end Document

end Storyworld
