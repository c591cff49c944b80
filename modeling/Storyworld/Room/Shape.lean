import Storyworld.Room
import Storyworld.Shape.Collecting
import Storyworld.Shape.Word

namespace Storyworld.Shape

/-! Rooms out of their nodes. -/

def roomSet (n : Node) : Except ShapeFault RoomSet := do
  let (name, list) ← n.parts do
    let name ← id "set name"
    let list ← child "room list"
    return (name, list)
  return { name, rooms := ← list.ids "room set", span := n.span }

/-! ## Exits -/

/-- An exit with one more option. -/
def exitOption (exit : Exit) (n : Node) : Collecting Exit := do
  match n.rule with
  | .exitRequiredItems =>
    let list ← n.parts (child "required items")
    let items ← list.ids "required_items"
    return { exit with requiredItems := exit.requiredItems ++ items }
  | .exitRequiredFlags =>
    let list ← n.parts (child "required flags")
    let flags ← list.ids "required_flags"
    return { exit with requiredFlags := exit.requiredFlags ++ flags }
  | .exitBarred =>
    let message ← n.parts (string "barred message")
    return { exit with barred := ← setOnce exit.barred "barred message" n.span message }
  | .exitHidden => return { exit with hidden := true }
  | .exitLocked => return { exit with locked := true }
  | _ => throw (n.misplaced "exit option")

def exit (n : Node) : Collecting Exit := do
  let (direction, target, options?) ← n.parts do
    let direction ← wordOrString "exit direction"
    let target ← id "destination room"
    let options? ← childOf? [.exitBlock]
    return (direction, target, options?)
  let plain : Exit :=
    { direction, target, requiredItems := [], requiredFlags := [], barred := none, hidden := false,
      locked := false, span := n.span }
  match options? with
  | some options => keepChanges exitOption plain options.nodes
  | none => return plain

/-! ## Overlays -/

def overlayCondition (n : Node) : Except ShapeFault Overlay.Condition :=
  n.parts do
    match n.rule with
    | .ovFlagSet => return .flagSet (← id "flag name")
    | .ovFlagUnset => return .flagUnset (← id "flag name")
    | .ovFlagComplete => return .flagComplete (← id "flag name")
    | .ovItemPresent => return .itemPresent (← id "item id")
    | .ovItemAbsent => return .itemAbsent (← id "item id")
    | .ovPlayerHasItem => return .playerHasItem (← id "item id")
    | .ovPlayerMissingItem => return .playerMissingItem (← id "item id")
    | .ovNpcPresent => return .npcPresent (← id "npc id")
    | .ovNpcAbsent => return .npcAbsent (← id "npc id")
    | .ovNpcInState =>
      let npc ← id "npc id"
      let state ← child "npc state"
      return .npcInState npc (← lenientMood state)
    | .ovItemInRoom =>
      let item ← id "item id"
      let room ← id "room id"
      return .itemInRoom item room
    | _ => throw (n.misplaced "overlay condition")

def moodLine (n : Node) : Except ShapeFault Overlay.MoodLine :=
  n.parts do
    let state ← strictMood (← child "npc state")
    let text ← string "state text"
    return { state, text }

/-- Adds a line to the two texts of an overlay; lines that are not the first one are the second. -/
def textLine (first second : String) (firstRule : Rule) (texts : Option String × Option String)
    (n : Node) : Collecting (Option String × Option String) := do
  let text ← n.parts (string "overlay text")
  if n.rule = firstRule then return (← setOnce texts.1 first n.span text, texts.2)
  else return (texts.1, ← setOnce texts.2 second n.span text)

/-- The two texts of an overlay, both of which it has to have. -/
def textPair (first second : String) (firstRule : Rule) (n : Node) (lines : List Node) :
    Collecting (String × String) := do
  let texts ← keepChanges (textLine first second firstRule) (none, none) lines
  let a ← require texts.1 first n.span
  let b ← require texts.2 second n.span
  return (a, b)

/-- Adds a part to the conditions and the text of a general overlay. -/
def generalPart (parts : List Overlay.Condition × Option String) (n : Node) :
    Collecting (List Overlay.Condition × Option String) := do
  if n.rule = .overlayText then
    let text ← n.parts (string "overlay text")
    return (parts.1, ← setOnce parts.2 "overlay text" n.span text)
  else
    let condition? ← keep (overlayCondition n)
    return (parts.1 ++ condition?.toList, parts.2)

def overlayKind (n : Node) : Collecting Overlay.Kind := do
  match n.rule with
  | .overlayFlagBinary =>
    let (flag, lines) ← n.head (id "overlay flag")
    let (setText, unsetText) ←
      textPair "set text" "unset text" .overlaySetText n (Element.nodes lines)
    return .flagBinary flag setText unsetText
  | .overlayItemPresence =>
    let (item, lines) ← n.head (id "overlay subject")
    let (presentText, absentText) ←
      textPair "present text" "absent text" .overlayPresentText n (Element.nodes lines)
    return .presencePair (.item item) presentText absentText
  | .overlayNpcPresence =>
    let (npc, lines) ← n.head (id "overlay subject")
    let (presentText, absentText) ←
      textPair "present text" "absent text" .overlayPresentText n (Element.nodes lines)
    return .presencePair (.npc npc) presentText absentText
  | .overlayNpcStates =>
    let (npc, entries) ← n.head (id "overlay npc")
    let lines ← keepAll (fun line => moodLine line) (Element.nodes entries)
    if (Element.nodes entries).isEmpty then throw (.empty "npc state overlay" n.span)
    return .moodSet npc lines
  | .overlayConditional =>
    let (conditions, text?) ← n.nodes.foldlM generalPart ([], none)
    let text ← require text? "overlay text" n.span
    return .conditional conditions text
  | _ => throw (n.misplaced "room statement")

def overlay (n : Node) : Collecting Overlay :=
  return { kind := ← overlayKind n, span := n.span }

/-! ## Rooms -/

/-- A room with one more statement; one that is nothing else is an overlay. -/
def roomStatement (room : Room) (n : Node) : Collecting Room := do
  match n.rule with
  | .roomName =>
    let name ← n.parts (string "room name")
    return { room with name := ← setOnce room.name "room name" n.span name }
  | .roomDesc =>
    let desc ← n.parts (string "room description")
    return { room with desc := ← setOnce room.desc "room description" n.span desc }
  | .roomVisited =>
    let visited ← n.parts (boolean "visited flag")
    return { room with visited := ← setOnce room.visited "visited" n.span visited }
  | .exit => return { room with exits := room.exits ++ [← exit n] }
  | _ => return { room with overlays := room.overlays ++ [← overlay n] }

def room (n : Node) : Collecting Room := do
  let (id, statements) ← n.head (id "room id")
  let plain : Room :=
    { id, name := none, desc := none, visited := none, exits := [], overlays := [], span := n.span }
  keepChanges roomStatement plain (Element.nodes statements)

end Storyworld.Shape
