import Storyworld.Grammar.Phrase

namespace Storyworld.Grammar

/-! The grammar of events. -/

def eventStarters : List String :=
  ["always", "enter", "leave", "take", "drop", "open", "unlock", "look", "talk", "use", "act",
    "give", "insert", "eat", "drink", "inhale"]

/-- `take item ITEM`, or the same from an npc. -/
def takeEvent : Parse (Rule × List Element) := do
  keyword "item"
  let item ← word "item id"
  if ← eatKeyword "from" then
    keyword "npc"
    let npc ← word "npc id"
    return (.evTakeFromNpc, [item, npc])
  else return (.evTakeItem, [item])

/-- `use item ITEM`, perhaps with an ability or on another item. -/
def useEvent : Parse (Rule × List Element) := do
  keyword "item"
  let item ← word "item id"
  if ← eatKeyword "on" then
    keyword "item"
    let target ← word "target item id"
    keyword "interaction"
    let interaction ← word "interaction name"
    return (.evUseItemOnItem, [item, target, interaction])
  else if ← eatKeyword "ability" then
    let name ← word "ability name"
    return (.evUseItem, [item, name])
  else return (.evUseItem, [item])

/-- An event, told by its first word. -/
def event : Parse Node :=
  nodeBy do
    let head ← oneOf eventStarters
    match head.text with
    | "always" => return (.evAlways, [])
    | "enter" =>
      keyword "room"
      return (.evEnterRoom, [.token (← word "room id")])
    | "leave" =>
      keyword "room"
      return (.evLeaveRoom, [.token (← word "room id")])
    | "take" => takeEvent
    | "drop" =>
      keyword "item"
      return (.evDropItem, [.token (← word "item id")])
    | "open" =>
      keyword "item"
      return (.evOpenItem, [.token (← word "item id")])
    | "unlock" =>
      keyword "item"
      return (.evUnlockItem, [.token (← word "item id")])
    | "look" =>
      keyword "at"
      keyword "item"
      return (.evLookAtItem, [.token (← word "item id")])
    | "talk" =>
      keyword "to"
      keyword "npc"
      return (.evTalkToNpc, [.token (← word "npc id")])
    | "use" => useEvent
    | "act" =>
      let interaction ← word "interaction name"
      keyword "on"
      keyword "item"
      let item ← word "item id"
      return (.evActOnItem, [interaction, item])
    | "give" =>
      keyword "item"
      let item ← word "item id"
      keyword "to"
      keyword "npc"
      let npc ← word "npc id"
      return (.evGiveToNpc, [item, npc])
    | "insert" =>
      keyword "item"
      let item ← word "item id"
      keyword "into"
      keyword "item"
      let container ← word "container item id"
      return (.evInsertItem, [item, container])
    | _ =>
      keyword "item"
      let item ← word "item id"
      return (.evIngest, [head, item])

end Storyworld.Grammar
