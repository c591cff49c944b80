import Storyworld.Grammar.Phrase

namespace Storyworld.Grammar

/-! The grammar of conditions. Inside a group a comma can separate two members or two rooms of one
member's room list; the token behind it decides. -/

/-- The words that begin a condition. -/
def conditionStarters : List String :=
  ["any", "all", "has", "missing", "flag", "with", "npc", "player", "container", "chance",
    "ambient", "in"]

/-- Where a condition stands. -/
inductive Place where
  /-- Every comma behind a room continues the room list. -/
  | standalone
  /-- A comma may belong to the group around the condition. -/
  | grouped
deriving DecidableEq, Repr

/-- Whether the comma that comes next continues a room list. -/
def continuesRooms (place : Place) : Parse Bool := do
  match place with
  | .standalone => return true
  | .grouped => aheadIs 1 fun t => t.isWord && !t.isOneOf conditionStarters

/-- Rooms with commas between them, without parentheses. -/
def roomList (place : Place) : Parse Node :=
  node .idList do
    return (← commaSeparated (word "room id") (continuesRooms place)).map .token

def hasCondition : Parse (Rule × List Element) := do
  let what ← oneOf ["flag", "item", "visited"]
  if what.text = "flag" then return (.condHasFlag, [.token (← word "id")])
  else if what.text = "item" then return (.condHasItem, [.token (← word "id")])
  else
    keyword "room"
    return (.condHasVisited, [.token (← word "id")])

def missingCondition : Parse (Rule × List Element) := do
  let what ← oneOf ["flag", "item"]
  let rule := if what.text = "flag" then Rule.condMissingFlag else .condMissingItem
  return (rule, [.token (← word "id")])

def flagCondition : Parse (Rule × List Element) := do
  if ← eatKeyword "in" then
    keyword "progress"
    return (.condFlagInProgress, [.token (← word "flag name")])
  else
    let _ ← oneOf ["in", "complete"]
    return (.condFlagComplete, [.token (← word "flag name")])

def npcCondition : Parse (Rule × List Element) := do
  if ← eatKeyword "has" then
    keyword "item"
    let npc ← word "npc id"
    let item ← word "item id"
    return (.condNpcHasItem, [npc, item])
  else
    let _ ← oneOf ["has", "in"]
    keyword "state"
    let npc ← word "npc id"
    let state ← mood
    return (.condNpcInState, [npc, state])

def ambientCondition (place : Place) : Parse (Rule × List Element) := do
  let spinner ← word "spinner id"
  let roomsFollow ← aheadIs 1 (·.isKeyword "rooms")
  if (← atKeyword "in") && roomsFollow then
    keyword "in"
    keyword "rooms"
    let rooms ← roomList place
    return (.condAmbient, [spinner, rooms])
  else return (.condAmbient, [spinner])

/-- A condition that is no group. -/
def query (place : Place) : Parse (Rule × List Element) := do
  if ← eatKeyword "has" then hasCondition
  else if ← eatKeyword "missing" then missingCondition
  else if ← eatKeyword "flag" then flagCondition
  else if ← eatKeyword "with" then
    keyword "npc"
    return (.condWithNpc, [.token (← word "npc id")])
  else if ← eatKeyword "npc" then npcCondition
  else if ← eatKeyword "player" then
    keyword "in"
    keyword "room"
    return (.condPlayerInRoom, [.token (← word "room id")])
  else if ← eatKeyword "container" then
    let container ← word "container item id"
    keyword "has"
    keyword "item"
    let item ← word "item id"
    return (.condContainerHasItem, [container, item])
  else if ← eatKeyword "chance" then
    let percent ← number
    mark .percent
    return (.condChance, [percent])
  else if ← eatKeyword "ambient" then ambientCondition place
  else if ← eatKeyword "in" then
    keyword "rooms"
    return (.condInRooms, [.node (← roomList place)])
  else unexpected conditionStarters

/-- A condition whose members, if it is a group, `member` reads. -/
def conditionOver (member : Parse Node) (place : Place) : Parse Node :=
  nodeBy do
    if ← atOneOf ["any", "all"] then
      let group ← oneOf ["any", "all"]
      let members ← parenthesized member
      let rule := if group.text = "any" then Rule.condAny else .condAll
      return (rule, members.map .node)
    else query place

/-- A condition in which at most `levels` groups lie inside one another. -/
def condition : (levels : Nat) → Place → Parse Node
  | 0, place => conditionOver tooDeep place
  | levels + 1, place => conditionOver (fun x s => condition levels .grouped x s) place

end Storyworld.Grammar
