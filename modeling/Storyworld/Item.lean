import Storyworld.Id
import Storyworld.Span

namespace Storyworld

/-! Items: what they can do, where they are, and how they are used up. -/

/-- Something an item can do, perhaps only to one other item. -/
structure Ability where
  name : Id .ability
  target : Option (Id .item)
deriving DecidableEq, Repr

/-- The ability an interaction with an item calls for. -/
structure AbilityRequirement where
  ability : Id .ability
  interaction : Id .interaction
deriving DecidableEq, Repr

inductive ContainerState where
  | opened
  | closed
  | locked
  | transparentClosed
  | transparentLocked
deriving DecidableEq, Repr

namespace ContainerState

def all : List ContainerState :=
  [opened, closed, locked, transparentClosed, transparentLocked]

/-- How a source spells the state. -/
def word : ContainerState → String
  | opened => "open"
  | closed => "closed"
  | locked => "locked"
  | transparentClosed => "transparentClosed"
  | transparentLocked => "transparentLocked"

def words : List String :=
  all.map word

def ofWord? (w : String) : Option ContainerState :=
  all.find? (·.word = w)

end ContainerState

inductive Item.Location where
  | inventory
  | room (id : Id .room)
  | chest (id : Id .item)
  | npc (id : Id .npc)
  /-- Not in the world yet; the note tells why. -/
  | nowhere (note : String)
deriving DecidableEq, Repr

/-- What becomes of an item that is used up. -/
inductive WhenConsumed where
  | despawn
  | replaceInventory (replacement : Id .item)
  | replaceCurrentRoom (replacement : Id .item)
deriving DecidableEq, Repr

structure Consumable where
  usesLeft : UInt32
  /-- The abilities whose use costs a charge; if there are none, every use does. -/
  consumeOn : List Ability
  whenConsumed : WhenConsumed
deriving DecidableEq, Repr

structure Item where
  id : Id .item
  name : Option String
  desc : Option String
  location : Option Item.Location
  portable : Option Bool
  restricted : Option Bool
  abilities : List Ability
  /-- What can be read on the item. -/
  text : List String
  containerState : Option ContainerState
  requires : List AbilityRequirement
  consumable : Option Consumable
  span : Span
deriving DecidableEq, Repr

end Storyworld
