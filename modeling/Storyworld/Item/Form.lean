import Storyworld.Form.Formed
import Storyworld.Item

namespace Storyworld

open Formed

/-! The form of items. -/

instance : Formed Ability where
  form a := .record [("name", form a.name), ("target", form a.target)]
  read? j := do
    let [name, target] ← j.columns? ["name", "target"] | none
    return { name := ← field? name, target := ← option? target }

instance : Formed AbilityRequirement where
  form r := .record [("ability", form r.ability), ("interaction", form r.interaction)]
  read? j := do
    let [ability, interaction] ← j.columns? ["ability", "interaction"] | none
    return { ability := ← field? ability, interaction := ← field? interaction }

instance : Formed ContainerState where
  form
    | .opened => .unit "Open"
    | .closed => .unit "Closed"
    | .locked => .unit "Locked"
    | .transparentClosed => .unit "TransparentClosed"
    | .transparentLocked => .unit "TransparentLocked"
  read? j := do
    match ← j.variant? with
    | ("Open", contents) => Json.bare .opened contents
    | ("Closed", contents) => Json.bare .closed contents
    | ("Locked", contents) => Json.bare .locked contents
    | ("TransparentClosed", contents) => Json.bare .transparentClosed contents
    | ("TransparentLocked", contents) => Json.bare .transparentLocked contents
    | _ => none

instance Item.instFormedLocation : Formed Item.Location where
  form
    | .inventory => .unit "Inventory"
    | .room id => .wrapped "Room" (form id)
    | .chest id => .wrapped "Chest" (form id)
    | .npc id => .wrapped "Npc" (form id)
    | .nowhere note => .wrapped "Nowhere" (form note)
  read? j := do
    match ← j.variant? with
    | ("Inventory", contents) => Json.bare .inventory contents
    | ("Room", some contents) => return .room (← read? contents)
    | ("Chest", some contents) => return .chest (← read? contents)
    | ("Npc", some contents) => return .npc (← read? contents)
    | ("Nowhere", some contents) => return .nowhere (← read? contents)
    | _ => none

instance : Formed WhenConsumed where
  form
    | .despawn => .unit "Despawn"
    | .replaceInventory replacement => .wrapped "ReplaceInventory" (form replacement)
    | .replaceCurrentRoom replacement => .wrapped "ReplaceCurrentRoom" (form replacement)
  read? j := do
    match ← j.variant? with
    | ("Despawn", contents) => Json.bare .despawn contents
    | ("ReplaceInventory", some contents) => return .replaceInventory (← read? contents)
    | ("ReplaceCurrentRoom", some contents) => return .replaceCurrentRoom (← read? contents)
    | _ => none

instance : Formed Consumable where
  form c :=
    .record [("uses_left", form c.usesLeft), ("consume_on", form c.consumeOn),
      ("when_consumed", form c.whenConsumed)]
  read? j := do
    let [usesLeft, consumeOn, whenConsumed] ←
      j.columns? ["uses_left", "consume_on", "when_consumed"] | none
    return {
      usesLeft := ← field? usesLeft
      consumeOn := ← field? consumeOn
      whenConsumed := ← field? whenConsumed }

instance : Formed Item where
  form i :=
    .record [("id", form i.id), ("name", form i.name), ("desc", form i.desc),
      ("location", form i.location), ("portable", form i.portable),
      ("restricted", form i.restricted), ("abilities", form i.abilities), ("text", form i.text),
      ("container_state", form i.containerState), ("requires", form i.requires),
      ("consumable", form i.consumable), ("span", form i.span)]
  read? j := do
    let [id, name, desc, location, portable, restricted, abilities, text, containerState, requires,
        consumable, span] ←
      j.columns? ["id", "name", "desc", "location", "portable", "restricted", "abilities", "text",
        "container_state", "requires", "consumable", "span"] | none
    return {
      id := ← field? id
      name := ← option? name
      desc := ← option? desc
      location := ← option? location
      portable := ← option? portable
      restricted := ← option? restricted
      abilities := ← field? abilities
      text := ← field? text
      containerState := ← option? containerState
      requires := ← field? requires
      consumable := ← option? consumable
      span := ← field? span }

end Storyworld
