import Storyworld.Form.Formed
import Storyworld.Spinner

namespace Storyworld

open Formed

/-! The form of spinners. -/

instance : Formed Wedge where
  form w := .record [("text", form w.text), ("width", form w.width), ("span", form w.span)]
  read? j := do
    let [text, width, span] ← j.columns? ["text", "width", "span"] | none
    return { text := ← field? text, width := ← option? width, span := ← field? span }

instance : Formed Spinner where
  form s := .record [("id", form s.id), ("wedges", form s.wedges), ("span", form s.span)]
  read? j := do
    let [id, wedges, span] ← j.columns? ["id", "wedges", "span"] | none
    return { id := ← field? id, wedges := ← field? wedges, span := ← field? span }

end Storyworld
