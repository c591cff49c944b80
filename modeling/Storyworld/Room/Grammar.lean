import Storyworld.Grammar.Phrase

namespace Storyworld.Grammar

/-! The grammar of rooms and of names for several rooms. -/

/-- `let set NAME = (ROOM, ...)` -/
def roomSet : Parse Node :=
  node .setDecl do
    keyword "let"
    keyword "set"
    let name ← word "set name"
    mark .equals
    let rooms ← idList "room id"
    return [name, rooms]

/-! ## Exits -/

def exitOptionStarters : List String :=
  ["required_items", "required_flags", "barred", "hidden", "locked"]

def exitOption : Parse Node := do
  if ← atKeyword "required_items" then
    node .exitRequiredItems do
      keyword "required_items"
      return [.node (← idList "item id")]
  else if ← atKeyword "required_flags" then
    node .exitRequiredFlags do
      keyword "required_flags"
      return [.node (← idList "flag name")]
  else if ← atKeyword "barred" then keywordThenString .exitBarred "barred"
  else if ← atKeyword "hidden" then
    node .exitHidden do
      keyword "hidden"
      return []
  else
    node .exitLocked do
      keyword "locked"
      return []

/-- The options of an exit; a comma may follow each of them. -/
def exitOptions : Parse Node :=
  node .exitBlock do
    let options ← blockOf exitOptionStarters do
      let option ← exitOption
      discard (eatMark .comma)
      return option
    return options.map .node

/-- `exit DIRECTION -> ROOM`, with options in braces or without. -/
def exit : Parse Node :=
  node .exit do
    keyword "exit"
    let direction ← wordOrString "direction"
    mark .arrow
    let target ← word "destination room id"
    if ← atMark .openBrace then
      let options ← exitOptions
      return [direction, target, options]
    else return [direction, target]

/-! ## Overlays -/

/-- A condition of a general overlay. -/
def overlayCondition : Parse Node :=
  nodeBy do
    if ← eatKeyword "flag" then
      let which ← oneOf ["set", "unset", "complete"]
      let rule :=
        if which.text = "set" then Rule.ovFlagSet
        else if which.text = "unset" then .ovFlagUnset
        else .ovFlagComplete
      return (rule, [.token (← word "flag name")])
    else if ← eatKeyword "item" then
      if ← eatKeyword "in" then
        keyword "room"
        let item ← word "item id"
        let room ← word "room id"
        return (.ovItemInRoom, [item, room])
      else
        let which ← oneOf ["present", "absent", "in"]
        let rule := if which.text = "present" then Rule.ovItemPresent else .ovItemAbsent
        return (rule, [.token (← word "item id")])
    else if ← eatKeyword "player" then
      let which ← oneOf ["has", "missing"]
      keyword "item"
      let rule := if which.text = "has" then Rule.ovPlayerHasItem else .ovPlayerMissingItem
      return (rule, [.token (← word "item id")])
    else if ← eatKeyword "npc" then
      if ← eatKeyword "in" then
        keyword "state"
        let npc ← word "npc id"
        let state ← mood
        return (.ovNpcInState, [npc, state])
      else
        let which ← oneOf ["present", "absent", "in"]
        let rule := if which.text = "present" then Rule.ovNpcPresent else .ovNpcAbsent
        return (rule, [.token (← word "npc id")])
    else unexpected ["flag", "item", "player", "npc"]

/-- The lines of an overlay on the states of an npc. -/
def moodLines : Parse (List Node) :=
  blockOf ["normal", "happy", "bored", "tired", "sad", "mad", "custom"] <|
    node .overlayStateLine do
      let state ← mood
      let text ← string
      return [state, text]

/-- Two texts, each behind a word of its own. -/
def textPair (first second : String) (firstRule secondRule : Rule) : Parse (List Node) :=
  blockOf [first, second] do
    if ← atKeyword first then keywordThenString firstRule first
    else keywordThenString secondRule second

/-- The conditions of a general overlay, in parentheses or without, and its text. -/
def generalOverlay : Parse (List Node) := do
  let inParens ← eatMark .openParen
  let conditions ← commaSeparated overlayCondition (return true)
  if inParens then mark .closeParen
  let texts ← blockOf ["text"] (keywordThenString .overlayText "text")
  return conditions ++ texts

/-- `overlay if ...`. What follows, up to the brace, tells which kind of overlay it is. -/
def overlay : Parse Node :=
  nodeBy do
    keyword "overlay"
    keyword "if"
    let braceAt2 ← aheadIs 2 (·.isMark .openBrace)
    let hereAt2 ← aheadIs 2 (·.isKeyword "here")
    let braceAt3 ← aheadIs 3 (·.isMark .openBrace)
    if (← atKeyword "flag") && braceAt2 then
      keyword "flag"
      let flag ← word "flag name"
      let texts ← textPair "set" "unset" .overlaySetText .overlayUnsetText
      return (.overlayFlagBinary, .token flag :: texts.map .node)
    else if (← atOneOf ["item", "npc"]) && braceAt2 then
      let isItem ← eatKeyword "item"
      if !isItem then keyword "npc"
      let subject ← word "id"
      let texts ← textPair "present" "absent" .overlayPresentText .overlayAbsentText
      let rule := if isItem then Rule.overlayItemPresence else .overlayNpcPresence
      return (rule, .token subject :: texts.map .node)
    else if (← atKeyword "npc") && hereAt2 && braceAt3 then
      keyword "npc"
      let npc ← word "npc id"
      keyword "here"
      let lines ← moodLines
      return (.overlayNpcStates, .token npc :: lines.map .node)
    else
      return (.overlayConditional, (← generalOverlay).map .node)

/-! ## Rooms -/

def roomStarters : List String :=
  ["name", "desc", "description", "visited", "exit", "overlay"]

def roomStatement : Parse Node := do
  if ← atKeyword "name" then keywordThenString .roomName "name"
  else if ← atOneOf ["desc", "description"] then description .roomDesc
  else if ← atKeyword "visited" then keywordThenBoolean .roomVisited "visited"
  else if ← atKeyword "exit" then exit
  else overlay

def room : Parse Node :=
  node .roomDef do
    keyword "room"
    let id ← word "room id"
    let statements ← blockOf roomStarters roomStatement
    return .token id :: statements.map .node

end Storyworld.Grammar
