import Storyworld.Mood.Form
import Storyworld.Room

namespace Storyworld

open Formed

/-! The form of rooms and of names for several rooms. -/

instance : Formed RoomSet where
  form s := .record [("name", form s.name), ("rooms", form s.rooms), ("span", form s.span)]
  read? j := do
    let [name, rooms, span] ← j.columns? ["name", "rooms", "span"] | none
    return { name := ← field? name, rooms := ← field? rooms, span := ← field? span }

instance : Formed Exit where
  form e :=
    .record [("direction", form e.direction), ("to", form e.target),
      ("required_items", form e.requiredItems), ("required_flags", form e.requiredFlags),
      ("barred", form e.barred), ("hidden", form e.hidden), ("locked", form e.locked),
      ("span", form e.span)]
  read? j := do
    let [direction, target, requiredItems, requiredFlags, barred, hidden, locked, span] ←
      j.columns? ["direction", "to", "required_items", "required_flags", "barred", "hidden",
        "locked", "span"] | none
    return {
      direction := ← field? direction
      target := ← field? target
      requiredItems := ← field? requiredItems
      requiredFlags := ← field? requiredFlags
      barred := ← option? barred
      hidden := ← field? hidden
      locked := ← field? locked
      span := ← field? span }

/-! ## Overlays -/

instance Overlay.instFormedCondition : Formed Overlay.Condition where
  form
    | .flagSet flag => .wrapped "FlagSet" (form flag)
    | .flagUnset flag => .wrapped "FlagUnset" (form flag)
    | .flagComplete flag => .wrapped "FlagComplete" (form flag)
    | .itemPresent item => .wrapped "ItemPresent" (form item)
    | .itemAbsent item => .wrapped "ItemAbsent" (form item)
    | .playerHasItem item => .wrapped "PlayerHasItem" (form item)
    | .playerMissingItem item => .wrapped "PlayerMissingItem" (form item)
    | .npcPresent npc => .wrapped "NpcPresent" (form npc)
    | .npcAbsent npc => .wrapped "NpcAbsent" (form npc)
    | .npcInState npc state => .fielded "NpcInState" [("npc", form npc), ("state", form state)]
    | .itemInRoom item room => .fielded "ItemInRoom" [("item", form item), ("room", form room)]
  read? j := do
    match ← j.variant? with
    | ("FlagSet", some contents) => return .flagSet (← read? contents)
    | ("FlagUnset", some contents) => return .flagUnset (← read? contents)
    | ("FlagComplete", some contents) => return .flagComplete (← read? contents)
    | ("ItemPresent", some contents) => return .itemPresent (← read? contents)
    | ("ItemAbsent", some contents) => return .itemAbsent (← read? contents)
    | ("PlayerHasItem", some contents) => return .playerHasItem (← read? contents)
    | ("PlayerMissingItem", some contents) => return .playerMissingItem (← read? contents)
    | ("NpcPresent", some contents) => return .npcPresent (← read? contents)
    | ("NpcAbsent", some contents) => return .npcAbsent (← read? contents)
    | ("NpcInState", contents) =>
      let [npc, state] ← Json.fields? ["npc", "state"] contents | none
      return .npcInState (← field? npc) (← field? state)
    | ("ItemInRoom", contents) =>
      let [item, room] ← Json.fields? ["item", "room"] contents | none
      return .itemInRoom (← field? item) (← field? room)
    | _ => none

instance Overlay.instFormedSubject : Formed Overlay.Subject where
  form
    | .item id => .wrapped "Item" (form id)
    | .npc id => .wrapped "Npc" (form id)
  read? j := do
    match ← j.variant? with
    | ("Item", some contents) => return .item (← read? contents)
    | ("Npc", some contents) => return .npc (← read? contents)
    | _ => none

instance Overlay.instFormedMoodLine : Formed Overlay.MoodLine where
  form l := .record [("state", form l.state), ("text", form l.text)]
  read? j := do
    let [state, text] ← j.columns? ["state", "text"] | none
    return { state := ← field? state, text := ← field? text }

instance Overlay.instFormedKind : Formed Overlay.Kind where
  form
    | .flagBinary flag setText unsetText =>
      .fielded "FlagBinary"
        [("flag", form flag), ("set_text", form setText), ("unset_text", form unsetText)]
    | .presencePair subject presentText absentText =>
      .fielded "PresencePair"
        [("subject", form subject), ("present_text", form presentText),
          ("absent_text", form absentText)]
    | .moodSet npc lines => .fielded "NpcStateSet" [("npc", form npc), ("lines", form lines)]
    | .conditional conditions text =>
      .fielded "Conditional" [("conditions", form conditions), ("text", form text)]
  read? j := do
    match ← j.variant? with
    | ("FlagBinary", contents) =>
      let [flag, setText, unsetText] ← Json.fields? ["flag", "set_text", "unset_text"] contents
        | none
      return .flagBinary (← field? flag) (← field? setText) (← field? unsetText)
    | ("PresencePair", contents) =>
      let [subject, presentText, absentText] ←
        Json.fields? ["subject", "present_text", "absent_text"] contents | none
      return .presencePair (← field? subject) (← field? presentText) (← field? absentText)
    | ("NpcStateSet", contents) =>
      let [npc, lines] ← Json.fields? ["npc", "lines"] contents | none
      return .moodSet (← field? npc) (← field? lines)
    | ("Conditional", contents) =>
      let [conditions, text] ← Json.fields? ["conditions", "text"] contents | none
      return .conditional (← field? conditions) (← field? text)
    | _ => none

instance : Formed Overlay where
  form o := .record [("kind", form o.kind), ("span", form o.span)]
  read? j := do
    let [kind, span] ← j.columns? ["kind", "span"] | none
    return { kind := ← field? kind, span := ← field? span }

/-! ## Rooms -/

instance : Formed Room where
  form r :=
    .record [("id", form r.id), ("name", form r.name), ("desc", form r.desc),
      ("visited", form r.visited), ("exits", form r.exits), ("overlays", form r.overlays),
      ("span", form r.span)]
  read? j := do
    let [id, name, desc, visited, exits, overlays, span] ←
      j.columns? ["id", "name", "desc", "visited", "exits", "overlays", "span"] | none
    return {
      id := ← field? id
      name := ← option? name
      desc := ← option? desc
      visited := ← option? visited
      exits := ← field? exits
      overlays := ← field? overlays
      span := ← field? span }

end Storyworld
