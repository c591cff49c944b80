import Storyworld.Id

namespace Storyworld

/-! What the player does to set a trigger off. -/

inductive IngestMode where
  | eat
  | drink
  | inhale
deriving DecidableEq, Repr

namespace IngestMode

def all : List IngestMode :=
  [eat, drink, inhale]

/-- How a source spells the mode. -/
def word : IngestMode → String
  | eat => "eat"
  | drink => "drink"
  | inhale => "inhale"

def words : List String :=
  all.map word

def ofWord? (w : String) : Option IngestMode :=
  all.find? (·.word = w)

end IngestMode

inductive Event where
  /-- Every turn. -/
  | always
  | enterRoom (room : Id .room)
  | leaveRoom (room : Id .room)
  | takeItem (item : Id .item)
  | dropItem (item : Id .item)
  | openItem (item : Id .item)
  | unlockItem (item : Id .item)
  | lookAtItem (item : Id .item)
  | talkToNpc (npc : Id .npc)
  | useItem (item : Id .item) (ability : Option (Id .ability))
  | useItemOnItem (tool target : Id .item) (interaction : Id .interaction)
  | actOnItem (interaction : Id .interaction) (item : Id .item)
  | giveToNpc (item : Id .item) (npc : Id .npc)
  | takeFromNpc (item : Id .item) (npc : Id .npc)
  | insertItemInto (item container : Id .item)
  | ingest (mode : IngestMode) (item : Id .item)
deriving DecidableEq, Repr

end Storyworld
