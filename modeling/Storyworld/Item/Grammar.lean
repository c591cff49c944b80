import Storyworld.Grammar.Phrase

namespace Storyworld.Grammar

/-! The grammar of items. -/

/-- What becomes of an item that is used up. -/
def whenConsumed : Parse Node :=
  nodeBy do
    keyword "when_consumed"
    if ← eatKeyword "despawn" then return (.whenConsumedDespawn, [])
    else
      keyword "replace"
      if ← eatKeyword "inventory" then
        return (.whenConsumedReplaceInventory, [.token (← word "replacement item id")])
      else if ← eatKeyword "current" then
        keyword "room"
        return (.whenConsumedReplaceRoom, [.token (← word "replacement item id")])
      else unexpected ["inventory", "current"]

def consumableStatement : Parse Node := do
  if ← atKeyword "uses_left" then keywordThenNumber .consumableUses "uses_left"
  else if ← atKeyword "consume_on" then
    node .consumeOn do
      keyword "consume_on"
      return [.node (← ability)]
  else whenConsumed

def consumable : Parse Node :=
  node .consumable do
    keyword "consumable"
    let statements ← blockOf ["uses_left", "consume_on", "when_consumed"] consumableStatement
    return statements.map .node

def itemLocation : Parse Node :=
  nodeBy do
    keyword "location"
    let kind ← oneOf ["inventory", "room", "chest", "container", "npc", "nowhere"]
    if kind.text = "inventory" then
      keyword "player"
      return (.locInventory, [])
    else if kind.text = "room" then return (.locRoom, [.token (← word "room id")])
    else if kind.text = "chest" || kind.text = "container" then
      return (.locChest, [.token (← word "container item id")])
    else if kind.text = "npc" then return (.locNpc, [.token (← word "npc id")])
    else return (.locNowhere, [.token (← string)])

/-- `requires ABILITY to INTERACTION` -/
def requirement : Parse Node :=
  node .itemRequires do
    keyword "requires"
    let needed ← word "ability name"
    keyword "to"
    let interaction ← word "interaction name"
    return [needed, interaction]

def itemStarters : List String :=
  ["name", "desc", "description", "portable", "restricted", "location", "ability", "text",
    "container", "requires", "consumable"]

def itemStatement : Parse Node := do
  if ← atKeyword "name" then keywordThenString .itemName "name"
  else if ← atOneOf ["desc", "description"] then description .itemDesc
  else if ← atKeyword "portable" then keywordThenBoolean .itemPortable "portable"
  else if ← atKeyword "restricted" then keywordThenBoolean .itemRestricted "restricted"
  else if ← atKeyword "location" then itemLocation
  else if ← atKeyword "ability" then ability
  else if ← atKeyword "text" then keywordThenString .itemText "text"
  else if ← atKeyword "container" then containerState .itemContainerState
  else if ← atKeyword "requires" then requirement
  else consumable

def item : Parse Node :=
  node .itemDef do
    keyword "item"
    let id ← word "item id"
    let statements ← blockOf itemStarters itemStatement
    return .token id :: statements.map .node

end Storyworld.Grammar
