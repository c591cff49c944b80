import Storyworld.Form.Formed
import Storyworld.Goal

namespace Storyworld

open Formed

/-! The form of goals. -/

instance : Formed GoalGroup where
  form
    | .required => .unit "Required"
    | .optional => .unit "Optional"
    | .statusEffect => .unit "StatusEffect"
  read? j := do
    match ← j.variant? with
    | ("Required", contents) => Json.bare .required contents
    | ("Optional", contents) => Json.bare .optional contents
    | ("StatusEffect", contents) => Json.bare .statusEffect contents
    | _ => none

instance Goal.instFormedCondition : Formed Goal.Condition where
  form
    | .hasFlag flag => .wrapped "HasFlag" (form flag)
    | .missingFlag flag => .wrapped "MissingFlag" (form flag)
    | .hasItem item => .wrapped "HasItem" (form item)
    | .reachedRoom room => .wrapped "ReachedRoom" (form room)
    | .goalComplete goal => .wrapped "GoalComplete" (form goal)
    | .flagInProgress flag => .wrapped "FlagInProgress" (form flag)
    | .flagComplete flag => .wrapped "FlagComplete" (form flag)
  read? j := do
    match ← j.variant? with
    | ("HasFlag", some contents) => return .hasFlag (← read? contents)
    | ("MissingFlag", some contents) => return .missingFlag (← read? contents)
    | ("HasItem", some contents) => return .hasItem (← read? contents)
    | ("ReachedRoom", some contents) => return .reachedRoom (← read? contents)
    | ("GoalComplete", some contents) => return .goalComplete (← read? contents)
    | ("FlagInProgress", some contents) => return .flagInProgress (← read? contents)
    | ("FlagComplete", some contents) => return .flagComplete (← read? contents)
    | _ => none

instance : Formed Goal where
  form g :=
    .record [("id", form g.id), ("name", form g.name), ("desc", form g.desc),
      ("group", form g.group), ("start", form g.start), ("done", form g.done),
      ("fail", form g.fail), ("span", form g.span)]
  read? j := do
    let [id, name, desc, group, start, done, fail, span] ←
      j.columns? ["id", "name", "desc", "group", "start", "done", "fail", "span"] | none
    return {
      id := ← field? id
      name := ← field? name
      desc := ← field? desc
      group := ← field? group
      start := ← field? start
      done := ← field? done
      fail := ← option? fail
      span := ← field? span }

end Storyworld
