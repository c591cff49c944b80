import Storyworld.Mood
import Storyworld.Span

namespace Storyworld

/-! Rooms, the exits between them, and the overlays that change what a room looks like. -/

/-- A way out of a room. -/
structure Exit where
  /-- A bare word or a quoted phrase. -/
  direction : String
  target : Id .room
  requiredItems : List (Id .item)
  requiredFlags : List (Id .flag)
  barred : Option String
  hidden : Bool
  locked : Bool
  span : Span
deriving DecidableEq, Repr

namespace Overlay

/-- What has to hold for a general overlay to show. -/
inductive Condition where
  | flagSet (flag : Id .flag)
  | flagUnset (flag : Id .flag)
  | flagComplete (flag : Id .flag)
  | itemPresent (item : Id .item)
  | itemAbsent (item : Id .item)
  | playerHasItem (item : Id .item)
  | playerMissingItem (item : Id .item)
  | npcPresent (npc : Id .npc)
  | npcAbsent (npc : Id .npc)
  | npcInState (npc : Id .npc) (state : Mood)
  | itemInRoom (item : Id .item) (room : Id .room)
deriving DecidableEq, Repr

/-- Whose presence picks the text. -/
inductive Subject where
  | item (id : Id .item)
  | npc (id : Id .npc)
deriving DecidableEq, Repr

/-- The text that shows while an npc is in some state. -/
structure MoodLine where
  state : Mood
  text : String
deriving DecidableEq, Repr

inductive Kind where
  /-- One text while a flag is set, another while it is not. -/
  | flagBinary (flag : Id .flag) (setText unsetText : String)
  /-- One text while something is here, another while it is not. -/
  | presencePair (subject : Subject) (presentText absentText : String)
  /-- A text for each state of an npc that is here. -/
  | moodSet (npc : Id .npc) (lines : List MoodLine)
  /-- A text that shows while all conditions hold. -/
  | conditional (conditions : List Condition) (text : String)
deriving DecidableEq, Repr

end Overlay

/-- Text added to a room's description. -/
structure Overlay where
  kind : Overlay.Kind
  span : Span
deriving DecidableEq, Repr

structure Room where
  id : Id .room
  name : Option String
  desc : Option String
  visited : Option Bool
  exits : List Exit
  overlays : List Overlay
  span : Span
deriving DecidableEq, Repr

/-- A name for several rooms together. -/
structure RoomSet where
  name : Id .roomSet
  rooms : List (Id .room)
  span : Span
deriving DecidableEq, Repr

end Storyworld
