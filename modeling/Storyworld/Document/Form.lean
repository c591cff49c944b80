import Storyworld.Document
import Storyworld.Goal.Form
import Storyworld.Item.Form
import Storyworld.Npc.Form
import Storyworld.Ron
import Storyworld.Room.Form
import Storyworld.Spinner.Form
import Storyworld.Trigger.Form

namespace Storyworld

open Formed

/-! The form of a document, and its text in JSON and in RON. -/

instance : Formed Definition where
  form
    | .roomSet set => .wrapped "Set" (form set)
    | .room room => .wrapped "Room" (form room)
    | .item item => .wrapped "Item" (form item)
    | .npc npc => .wrapped "Npc" (form npc)
    | .trigger trigger => .wrapped "Trigger" (form trigger)
    | .spinner spinner => .wrapped "Spinner" (form spinner)
    | .goal goal => .wrapped "Goal" (form goal)
  read? j := do
    match ← j.variant? with
    | ("Set", some contents) => return .roomSet (← read? contents)
    | ("Room", some contents) => return .room (← read? contents)
    | ("Item", some contents) => return .item (← read? contents)
    | ("Npc", some contents) => return .npc (← read? contents)
    | ("Trigger", some contents) => return .trigger (← read? contents)
    | ("Spinner", some contents) => return .spinner (← read? contents)
    | ("Goal", some contents) => return .goal (← read? contents)
    | _ => none

instance : Formed Document where
  form d := .record [("definitions", form d.definitions), ("comments", form d.comments)]
  read? j := do
    let [definitions, comments] ← j.columns? ["definitions", "comments"] | none
    return { definitions := ← field? definitions, comments := ← field? comments }

namespace Document

/-- The JSON value of a document. -/
def toJson (d : Document) : Json :=
  .ofForm (form d)

/-- The document a JSON value stands for. -/
def ofJson? (j : Json) : Option Document :=
  read? j

/-- The JSON text of a document. -/
def json (d : Document) : String :=
  d.toJson.pretty

/-- The RON text of a document, unless it has too many levels. -/
def ron? (d : Document) : Option String :=
  Ron.pretty? (form d)

end Document

end Storyworld
