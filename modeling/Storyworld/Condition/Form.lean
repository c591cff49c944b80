import Storyworld.Condition
import Storyworld.Mood.Form

namespace Storyworld

open Formed

/-! The form of conditions. -/

instance : Formed Query where
  form
    | .hasFlag flag => .wrapped "HasFlag" (form flag)
    | .missingFlag flag => .wrapped "MissingFlag" (form flag)
    | .hasItem item => .wrapped "HasItem" (form item)
    | .missingItem item => .wrapped "MissingItem" (form item)
    | .hasVisited room => .wrapped "HasVisited" (form room)
    | .flagInProgress flag => .wrapped "FlagInProgress" (form flag)
    | .flagComplete flag => .wrapped "FlagComplete" (form flag)
    | .withNpc npc => .wrapped "WithNpc" (form npc)
    | .npcHasItem npc item => .fielded "NpcHasItem" [("npc", form npc), ("item", form item)]
    | .npcInState npc state => .fielded "NpcInState" [("npc", form npc), ("state", form state)]
    | .playerInRoom room => .wrapped "PlayerInRoom" (form room)
    | .containerHasItem container item =>
      .fielded "ContainerHasItem" [("container", form container), ("item", form item)]
    | .chance percent => .wrapped "Chance" (form percent)
    | .ambient spinner rooms =>
      .fielded "Ambient" [("spinner", form spinner), ("rooms", form rooms)]
    | .inRooms rooms => .wrapped "InRooms" (form rooms)
  read? j := do
    match ← j.variant? with
    | ("HasFlag", some contents) => return .hasFlag (← read? contents)
    | ("MissingFlag", some contents) => return .missingFlag (← read? contents)
    | ("HasItem", some contents) => return .hasItem (← read? contents)
    | ("MissingItem", some contents) => return .missingItem (← read? contents)
    | ("HasVisited", some contents) => return .hasVisited (← read? contents)
    | ("FlagInProgress", some contents) => return .flagInProgress (← read? contents)
    | ("FlagComplete", some contents) => return .flagComplete (← read? contents)
    | ("WithNpc", some contents) => return .withNpc (← read? contents)
    | ("NpcHasItem", contents) =>
      let [npc, item] ← Json.fields? ["npc", "item"] contents | none
      return .npcHasItem (← field? npc) (← field? item)
    | ("NpcInState", contents) =>
      let [npc, state] ← Json.fields? ["npc", "state"] contents | none
      return .npcInState (← field? npc) (← field? state)
    | ("PlayerInRoom", some contents) => return .playerInRoom (← read? contents)
    | ("ContainerHasItem", contents) =>
      let [container, item] ← Json.fields? ["container", "item"] contents | none
      return .containerHasItem (← field? container) (← field? item)
    | ("Chance", some contents) => return .chance (← read? contents)
    | ("Ambient", contents) =>
      let [spinner, rooms] ← Json.fields? ["spinner", "rooms"] contents | none
      return .ambient (← field? spinner) (← option? rooms)
    | ("InRooms", some contents) => return .inRooms (← read? contents)
    | _ => none

namespace Condition

mutual

def toForm : Condition → Form
  | .single query => form query
  | .any members => .wrapped "Any" (.list (toForms members))
  | .all members => .wrapped "All" (.list (toForms members))

def toForms : List Condition → List Form
  | [] => []
  | c :: cs => toForm c :: toForms cs

end

mutual

def ofJson? : Json → Option Condition
  | .object [(name, .array items)] =>
    if name = "Any" then (ofJsons? items).map .any
    else if name = "All" then (ofJsons? items).map .all
    else (read? (.object [(name, .array items)])).map .single
  | j => (read? j).map .single

def ofJsons? : List Json → Option (List Condition)
  | [] => some []
  | j :: js =>
    match ofJson? j, ofJsons? js with
    | some c, some cs => some (c :: cs)
    | _, _ => none

end

end Condition

instance : Formed Condition where
  form := Condition.toForm
  read? := Condition.ofJson?

end Storyworld
