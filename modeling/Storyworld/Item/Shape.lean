import Storyworld.Shape.Collecting
import Storyworld.Shape.Word

namespace Storyworld.Shape

/-! Items out of their nodes. -/

def itemLocation (n : Node) : Except ShapeFault Item.Location :=
  n.parts do
    match n.rule with
    | .locInventory => return .inventory
    | .locRoom => return .room (← id "room id")
    | .locChest => return .chest (← id "container item id")
    | .locNpc => return .npc (← id "npc id")
    | _ => return .nowhere (← string "nowhere note")

def requirement (n : Node) : Except ShapeFault AbilityRequirement :=
  n.parts do
    let ability ← id "required ability"
    let interaction ← id "interaction"
    return { ability, interaction }

/-! ## Consumables -/

/-- A consumable of which some parts may not be known yet. -/
structure ConsumableDraft where
  usesLeft : Option UInt32 := none
  consumeOn : List Ability := []
  whenConsumed : Option WhenConsumed := none

/-- A draft with one more statement. A number of uses out of range is recorded and still counts as
given. -/
def consumableStatement (draft : ConsumableDraft) (n : Node) : Collecting ConsumableDraft := do
  let finish (w : WhenConsumed) : Collecting ConsumableDraft :=
    return { draft with whenConsumed := ← setOnce draft.whenConsumed "when_consumed" n.span w }
  match n.rule with
  | .consumableUses =>
    let (value, span) ← n.parts (number "uses_left")
    let uses := (unsigned? value).getD 0
    if uses = 0 then report (.outOfRange "uses_left" value.toInt span)
    return { draft with usesLeft := ← setOnce draft.usesLeft "uses_left" n.span uses }
  | .consumeOn =>
    let used ← ability (← n.parts (child "consume_on ability"))
    return { draft with consumeOn := draft.consumeOn ++ [used] }
  | .whenConsumedDespawn => finish .despawn
  | .whenConsumedReplaceInventory =>
    finish (.replaceInventory (← n.parts (id "replacement item")))
  | .whenConsumedReplaceRoom =>
    finish (.replaceCurrentRoom (← n.parts (id "replacement item")))
  | _ => throw (n.misplaced "consumable statement")

def consumable (n : Node) : Collecting Consumable := do
  let draft ← keepChanges consumableStatement {} n.nodes
  let usesLeft ← require draft.usesLeft "uses_left" n.span
  let whenConsumed ← require draft.whenConsumed "when_consumed" n.span
  return { usesLeft, consumeOn := draft.consumeOn, whenConsumed }

/-! ## Items -/

/-- An item with one more statement. -/
def itemStatement (item : Item) (n : Node) : Collecting Item := do
  match n.rule with
  | .itemName =>
    let name ← n.parts (string "item name")
    return { item with name := ← setOnce item.name "item name" n.span name }
  | .itemDesc =>
    let desc ← n.parts (string "item description")
    return { item with desc := ← setOnce item.desc "item description" n.span desc }
  | .itemPortable =>
    let portable ← n.parts (boolean "portable")
    return { item with portable := ← setOnce item.portable "portable" n.span portable }
  | .itemRestricted =>
    let restricted ← n.parts (boolean "restricted")
    return { item with restricted := ← setOnce item.restricted "restricted" n.span restricted }
  | .locInventory | .locRoom | .locChest | .locNpc | .locNowhere =>
    let location ← itemLocation n
    return { item with location := ← setOnce item.location "item location" n.span location }
  | .ability => return { item with abilities := item.abilities ++ [← ability n] }
  | .itemText => return { item with text := item.text ++ [← n.parts (string "item text")] }
  | .itemContainerState =>
    let state ← containerState (← n.parts (token "container state"))
    return { item with
      containerState := ← setOnce item.containerState "container state" n.span state }
  | .itemRequires => return { item with requires := item.requires ++ [← requirement n] }
  | .consumable =>
    let consumable ← consumable n
    return { item with consumable := ← setOnce item.consumable "consumable" n.span consumable }
  | _ => throw (n.misplaced "item statement")

def item (n : Node) : Collecting Item := do
  let (id, statements) ← n.head (id "item id")
  let plain : Item :=
    { id, name := none, desc := none, location := none, portable := none, restricted := none,
      abilities := [], text := [], containerState := none, requires := [], consumable := none,
      span := n.span }
  keepChanges itemStatement plain (Element.nodes statements)

end Storyworld.Shape
