import Storyworld.Mood.Form
import Storyworld.Npc

namespace Storyworld

open Formed

/-! The form of npcs. -/

instance Npc.instFormedLocation : Formed Npc.Location where
  form
    | .room id => .wrapped "Room" (form id)
    | .nowhere note => .wrapped "Nowhere" (form note)
  read? j := do
    match ← j.variant? with
    | ("Room", some contents) => return .room (← read? contents)
    | ("Nowhere", some contents) => return .nowhere (← read? contents)
    | _ => none

instance : Formed MovementKind where
  form
    | .route => .unit "Route"
    | .random => .unit "Random"
  read? j := do
    match ← j.variant? with
    | ("Route", contents) => Json.bare .route contents
    | ("Random", contents) => Json.bare .random contents
    | _ => none

instance : Formed Movement where
  form m :=
    .record [("kind", form m.kind), ("rooms", form m.rooms), ("timing", form m.timing),
      ("active", form m.active), ("loop_route", form m.loopRoute)]
  read? j := do
    let [kind, rooms, timing, active, loopRoute] ←
      j.columns? ["kind", "rooms", "timing", "active", "loop_route"] | none
    return {
      kind := ← field? kind
      rooms := ← field? rooms
      timing := ← option? timing
      active := ← option? active
      loopRoute := ← option? loopRoute }

instance : Formed Dialogue where
  form d := .record [("state", form d.state), ("lines", form d.lines), ("span", form d.span)]
  read? j := do
    let [state, lines, span] ← j.columns? ["state", "lines", "span"] | none
    return { state := ← field? state, lines := ← field? lines, span := ← field? span }

instance : Formed Npc where
  form n :=
    .record [("id", form n.id), ("name", form n.name), ("desc", form n.desc),
      ("location", form n.location), ("state", form n.state), ("movement", form n.movement),
      ("dialogue", form n.dialogue), ("span", form n.span)]
  read? j := do
    let [id, name, desc, location, state, movement, dialogue, span] ←
      j.columns? ["id", "name", "desc", "location", "state", "movement", "dialogue", "span"] | none
    return {
      id := ← field? id
      name := ← option? name
      desc := ← option? desc
      location := ← option? location
      state := ← option? state
      movement := ← option? movement
      dialogue := ← field? dialogue
      span := ← field? span }

end Storyworld
