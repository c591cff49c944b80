import Storyworld.Event
import Storyworld.Form.Formed

namespace Storyworld

open Formed

/-! The form of events. -/

instance : Formed IngestMode where
  form
    | .eat => .unit "Eat"
    | .drink => .unit "Drink"
    | .inhale => .unit "Inhale"
  read? j := do
    match ← j.variant? with
    | ("Eat", contents) => Json.bare .eat contents
    | ("Drink", contents) => Json.bare .drink contents
    | ("Inhale", contents) => Json.bare .inhale contents
    | _ => none

instance : Formed Event where
  form
    | .always => .unit "Always"
    | .enterRoom room => .wrapped "EnterRoom" (form room)
    | .leaveRoom room => .wrapped "LeaveRoom" (form room)
    | .takeItem item => .wrapped "TakeItem" (form item)
    | .dropItem item => .wrapped "DropItem" (form item)
    | .openItem item => .wrapped "OpenItem" (form item)
    | .unlockItem item => .wrapped "UnlockItem" (form item)
    | .lookAtItem item => .wrapped "LookAtItem" (form item)
    | .talkToNpc npc => .wrapped "TalkToNpc" (form npc)
    | .useItem item ability => .fielded "UseItem" [("item", form item), ("ability", form ability)]
    | .useItemOnItem tool target interaction =>
      .fielded "UseItemOnItem"
        [("tool", form tool), ("target", form target), ("interaction", form interaction)]
    | .actOnItem interaction item =>
      .fielded "ActOnItem" [("interaction", form interaction), ("item", form item)]
    | .giveToNpc item npc => .fielded "GiveToNpc" [("item", form item), ("npc", form npc)]
    | .takeFromNpc item npc => .fielded "TakeFromNpc" [("item", form item), ("npc", form npc)]
    | .insertItemInto item container =>
      .fielded "InsertItemInto" [("item", form item), ("container", form container)]
    | .ingest mode item => .fielded "Ingest" [("mode", form mode), ("item", form item)]
  read? j := do
    match ← j.variant? with
    | ("Always", contents) => Json.bare .always contents
    | ("EnterRoom", some contents) => return .enterRoom (← read? contents)
    | ("LeaveRoom", some contents) => return .leaveRoom (← read? contents)
    | ("TakeItem", some contents) => return .takeItem (← read? contents)
    | ("DropItem", some contents) => return .dropItem (← read? contents)
    | ("OpenItem", some contents) => return .openItem (← read? contents)
    | ("UnlockItem", some contents) => return .unlockItem (← read? contents)
    | ("LookAtItem", some contents) => return .lookAtItem (← read? contents)
    | ("TalkToNpc", some contents) => return .talkToNpc (← read? contents)
    | ("UseItem", contents) =>
      let [item, ability] ← Json.fields? ["item", "ability"] contents | none
      return .useItem (← field? item) (← option? ability)
    | ("UseItemOnItem", contents) =>
      let [tool, target, interaction] ← Json.fields? ["tool", "target", "interaction"] contents
        | none
      return .useItemOnItem (← field? tool) (← field? target) (← field? interaction)
    | ("ActOnItem", contents) =>
      let [interaction, item] ← Json.fields? ["interaction", "item"] contents | none
      return .actOnItem (← field? interaction) (← field? item)
    | ("GiveToNpc", contents) =>
      let [item, npc] ← Json.fields? ["item", "npc"] contents | none
      return .giveToNpc (← field? item) (← field? npc)
    | ("TakeFromNpc", contents) =>
      let [item, npc] ← Json.fields? ["item", "npc"] contents | none
      return .takeFromNpc (← field? item) (← field? npc)
    | ("InsertItemInto", contents) =>
      let [item, container] ← Json.fields? ["item", "container"] contents | none
      return .insertItemInto (← field? item) (← field? container)
    | ("Ingest", contents) =>
      let [mode, item] ← Json.fields? ["mode", "item"] contents | none
      return .ingest (← field? mode) (← field? item)
    | _ => none

end Storyworld
