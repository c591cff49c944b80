import Storyworld.Mood
import Storyworld.Span

namespace Storyworld

/-! Npcs: where they are, how they move about, and what they say. -/

inductive Npc.Location where
  | room (id : Id .room)
  | nowhere (note : String)
deriving DecidableEq, Repr

inductive MovementKind where
  | route
  | random
deriving DecidableEq, Repr

structure Movement where
  kind : MovementKind
  rooms : List (Id .room)
  timing : Option (Id .timing)
  active : Option Bool
  loopRoute : Option Bool
deriving DecidableEq, Repr

/-- What an npc may say while in some state. -/
structure Dialogue where
  state : Mood
  lines : List String
  span : Span
deriving DecidableEq, Repr

structure Npc where
  id : Id .npc
  name : Option String
  desc : Option String
  location : Option Npc.Location
  state : Option Mood
  movement : Option Movement
  dialogue : List Dialogue
  span : Span
deriving DecidableEq, Repr

end Storyworld
