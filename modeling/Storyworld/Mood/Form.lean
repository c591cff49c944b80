import Storyworld.Form.Formed
import Storyworld.Mood

namespace Storyworld

/-! The form of moods. -/

instance : Formed BuiltinMood where
  form
    | .normal => .unit "Normal"
    | .happy => .unit "Happy"
    | .bored => .unit "Bored"
    | .tired => .unit "Tired"
    | .sad => .unit "Sad"
    | .mad => .unit "Mad"
  read? j := do
    match ← j.variant? with
    | ("Normal", contents) => Json.bare .normal contents
    | ("Happy", contents) => Json.bare .happy contents
    | ("Bored", contents) => Json.bare .bored contents
    | ("Tired", contents) => Json.bare .tired contents
    | ("Sad", contents) => Json.bare .sad contents
    | ("Mad", contents) => Json.bare .mad contents
    | _ => none

instance : Formed Mood where
  form
    | .builtin mood => .wrapped "Builtin" (form mood)
    | .custom name => .wrapped "Custom" (form name)
  read? j := do
    match ← j.variant? with
    | ("Builtin", some contents) => return .builtin (← read? contents)
    | ("Custom", some contents) => return .custom (← read? contents)
    | _ => none

end Storyworld
