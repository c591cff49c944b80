import Storyworld.Mood

namespace Storyworld

/-! What a trigger or a schedule can ask of the world. -/

/-- A single question. -/
inductive Query where
  | hasFlag (flag : Id .flag)
  | missingFlag (flag : Id .flag)
  | hasItem (item : Id .item)
  | missingItem (item : Id .item)
  | hasVisited (room : Id .room)
  | flagInProgress (flag : Id .flag)
  | flagComplete (flag : Id .flag)
  | withNpc (npc : Id .npc)
  | npcHasItem (npc : Id .npc) (item : Id .item)
  | npcInState (npc : Id .npc) (state : Mood)
  | playerInRoom (room : Id .room)
  | containerHasItem (container item : Id .item)
  /-- True so many times in a hundred. -/
  | chance (percent : UInt8)
  | ambient (spinner : Id .spinner) (rooms : Option (List (Id .room)))
  | inRooms (rooms : List (Id .room))
deriving DecidableEq, Repr

/-- Questions joined into groups. -/
inductive Condition where
  | single (query : Query)
  | any (members : List Condition)
  | all (members : List Condition)
deriving Repr

end Storyworld
