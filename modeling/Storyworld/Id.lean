namespace Storyworld

/-! Names by which parts of a world refer to one another. Nothing here asks whether the thing named
exists. -/

/-- What an id can name. -/
inductive Referent where
  | room
  | item
  | npc
  | flag
  | goal
  | spinner
  | roomSet
  | ability
  | interaction
  | mood
  | timing
deriving DecidableEq, Repr

/-- The name of a room, an item, a flag and so on. -/
structure Id (of : Referent) where
  name : String
deriving DecidableEq, Repr

end Storyworld
