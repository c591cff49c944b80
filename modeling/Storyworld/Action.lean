import Storyworld.Condition
import Storyworld.Item

namespace Storyworld

/-! What a trigger does: effects that happen at once, and schedules that wait. -/

inductive ContainerPatch where
  | set (state : ContainerState)
  /-- The item is a container no more. -/
  | remove
deriving DecidableEq, Repr

/-- Changes to the fields of an item. -/
structure ItemPatch where
  name : Option String := none
  desc : Option String := none
  text : Option String := none
  portable : Option Bool := none
  restricted : Option Bool := none
  containerState : Option ContainerPatch := none
  addAbilities : List Ability := []
  removeAbilities : List Ability := []
deriving DecidableEq, Repr

/-- What happens at once. -/
inductive Effect where
  | modifyItem (item : Id .item) (patch : ItemPatch)
  | showText (text : String)
  | addFlag (flag : Id .flag)
  | removeFlag (flag : Id .flag)
  | resetFlag (flag : Id .flag)
  | advanceFlag (flag : Id .flag)
  | addWedge (spinner : Id .spinner) (text : String) (width : Option UInt32)
  | addSeqFlag (flag : Id .flag) (limit : Option UInt32)
  | replaceItem (old new : Id .item)
  /-- Another item takes its place when the player drops it. -/
  | replaceDropItem (old new : Id .item)
  | spawnItemIntoRoom (item : Id .item) (room : Id .room)
  | spawnItemIntoContainer (item container : Id .item)
  | spawnItemInInventory (item : Id .item)
  | spawnItemInCurrentRoom (item : Id .item)
  | spawnNpcIntoRoom (npc : Id .npc) (room : Id .room)
  | despawnNpc (npc : Id .npc)
  | despawnItem (item : Id .item)
  | awardPoints (amount : Int64) (reason : Option String)
  | lockItem (item : Id .item)
  | unlockItem (item : Id .item)
  | lockExit (origin : Id .room) (direction : String)
  | unlockExit (origin : Id .room) (direction : String)
  | revealExit (origin target : Id .room) (direction : String)
  | pushPlayerTo (room : Id .room)
  | setItemDescription (item : Id .item) (text : String)
  | npcSays (npc : Id .npc) (quote : String)
  | npcRandomDialogue (npc : Id .npc)
  | npcRefuseItem (npc : Id .npc) (reason : String)
  | setNpcActive (npc : Id .npc) (active : Bool)
  | setNpcState (npc : Id .npc) (state : Mood)
  | denyRead (text : String)
  | restrictItem (item : Id .item)
  | giveItemToPlayer (item : Id .item) (npc : Id .npc)
  | setBarredMessage (origin target : Id .room) (message : String)
  | setContainerState (item : Id .item) (state : ContainerState)
  | spinnerMessage (spinner : Id .spinner)
deriving DecidableEq, Repr

/-- Whether a number of turns counts from now or from the beginning of the game. -/
inductive Anchor where
  | fromNow
  | absolute
deriving DecidableEq, Repr

/-- What to do when a schedule is due and its guard is false. -/
inductive RetryPolicy where
  | cancel
  | retryNextTurn
  | retryAfter (turns : UInt32)
deriving DecidableEq, Repr

/-- What has to hold when a schedule is due. -/
structure Guard where
  condition : Condition
  /-- If nothing is said here, the game decides. -/
  retry : Option RetryPolicy
deriving Repr

mutual

inductive Action where
  | effect (effect : Effect)
  | schedule (anchor : Anchor) (turns : UInt32) (guard : Option Guard) (note : Option String)
      (body : List Statement)

/-- An action and where it is ordered. -/
inductive Deed where
  | mk (action : Action) (span : Span)

inductive Statement where
  | perform (deed : Deed)
  /-- Deeds done only if a condition holds. -/
  | branch (condition : Condition) (deeds : List Deed) (span : Span)

end

end Storyworld
