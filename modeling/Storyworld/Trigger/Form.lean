import Storyworld.Action.Form
import Storyworld.Event.Form
import Storyworld.Trigger

namespace Storyworld

open Formed

/-! The form of triggers. -/

instance : Formed Trigger where
  form t :=
    .record [("name", form t.name), ("only_once", form t.onlyOnce), ("notes", form t.notes),
      ("event", form t.event), ("block", form t.block), ("span", form t.span)]
  read? j := do
    let [name, onlyOnce, notes, event, block, span] ←
      j.columns? ["name", "only_once", "notes", "event", "block", "span"] | none
    return {
      name := ← field? name
      onlyOnce := ← field? onlyOnce
      notes := ← field? notes
      event := ← field? event
      block := ← field? block
      span := ← field? span }

end Storyworld
