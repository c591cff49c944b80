import Storyworld.Grammar.Phrase

namespace Storyworld.Grammar

/-! The grammar of npcs. -/

def npcLocation : Parse Node :=
  nodeBy do
    keyword "location"
    if ← eatKeyword "nowhere" then return (.locNowhere, [.token (← string)])
    else
      let _ ← oneOf ["room", "nowhere"]
      return (.locRoom, [.token (← word "room id")])

/-- The next option of a movement, if another one follows. -/
def movementOption : Parse (Option Node) := do
  if ← atKeyword "timing" then
    some <$> node .movementTiming do
      keyword "timing"
      return [.token (← word "timing tag")]
  else if ← atKeyword "active" then some <$> keywordThenBoolean .movementActive "active"
  else if ← atKeyword "loop" then some <$> keywordThenBoolean .movementLoop "loop"
  else return none

/-- `movement route|random rooms (ROOM, ...)` and its options. -/
def movement : Parse Node :=
  node .npcMovement do
    keyword "movement"
    let kind ← oneOf ["route", "random"]
    keyword "rooms"
    let rooms ← idList "room id"
    let options ← many movementOption
    return .token kind :: .node rooms :: options.map .node

/-- The next line of a dialogue, or nothing at its closing brace. -/
def dialogueLine : Parse (Option Token) := do
  if ← eatMark .closeBrace then return none
  else some <$> expect ["string", "\x7d"] (·.isString)

/-- `dialogue STATE` and lines in braces. -/
def dialogue : Parse Node :=
  node .dialogue do
    keyword "dialogue"
    let state ← mood
    mark .openBrace
    let lines ← many dialogueLine
    return .node state :: lines.map .token

def npcStarters : List String :=
  ["name", "desc", "description", "location", "state", "movement", "dialogue"]

def npcStatement : Parse Node := do
  if ← atKeyword "name" then keywordThenString .npcName "name"
  else if ← atOneOf ["desc", "description"] then description .npcDesc
  else if ← atKeyword "location" then npcLocation
  else if ← atKeyword "state" then
    node .npcState do
      keyword "state"
      return [.node (← mood)]
  else if ← atKeyword "movement" then movement
  else dialogue

def npc : Parse Node :=
  node .npcDef do
    keyword "npc"
    let id ← word "npc id"
    let statements ← blockOf npcStarters npcStatement
    return .token id :: statements.map .node

end Storyworld.Grammar
