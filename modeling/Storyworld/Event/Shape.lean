import Storyworld.Event
import Storyworld.Shape.Word

namespace Storyworld.Shape

/-! Events out of their nodes. -/

def event (n : Node) : Except ShapeFault Event :=
  n.parts do
    match n.rule with
    | .evAlways => return .always
    | .evEnterRoom => return .enterRoom (← id "room id")
    | .evLeaveRoom => return .leaveRoom (← id "room id")
    | .evTakeItem => return .takeItem (← id "item id")
    | .evDropItem => return .dropItem (← id "item id")
    | .evOpenItem => return .openItem (← id "item id")
    | .evUnlockItem => return .unlockItem (← id "item id")
    | .evLookAtItem => return .lookAtItem (← id "item id")
    | .evTalkToNpc => return .talkToNpc (← id "npc id")
    | .evUseItem =>
      let item ← id "item id"
      let ability ← token?
      return .useItem item (ability.map fun t => ⟨t.text⟩)
    | .evUseItemOnItem =>
      let tool ← id "item id"
      let target ← id "target item id"
      let interaction ← id "interaction"
      return .useItemOnItem tool target interaction
    | .evActOnItem =>
      let interaction ← id "interaction"
      let item ← id "item id"
      return .actOnItem interaction item
    | .evGiveToNpc =>
      let item ← id "item id"
      let npc ← id "npc id"
      return .giveToNpc item npc
    | .evTakeFromNpc =>
      let item ← id "item id"
      let npc ← id "npc id"
      return .takeFromNpc item npc
    | .evInsertItem =>
      let item ← id "item id"
      let container ← id "container item id"
      return .insertItemInto item container
    | .evIngest =>
      let t ← token "ingest mode"
      let mode ← meaning "ingest mode" IngestMode.words IngestMode.ofWord? t
      let item ← id "item id"
      return .ingest mode item
    | _ => throw (n.misplaced "event")

end Storyworld.Shape
