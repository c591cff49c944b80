import Storyworld.Goal
import Storyworld.Shape.Collecting
import Storyworld.Shape.Word

namespace Storyworld.Shape

/-! Goals out of their nodes. -/

def goalCondition (n : Node) : Except ShapeFault Goal.Condition :=
  n.parts do
    match n.rule with
    | .gcHasFlag => return .hasFlag (← id "flag name")
    | .gcMissingFlag => return .missingFlag (← id "flag name")
    | .gcHasItem => return .hasItem (← id "item id")
    | .gcReachedRoom => return .reachedRoom (← id "room id")
    | .gcGoalComplete => return .goalComplete (← id "goal id")
    | .gcFlagInProgress => return .flagInProgress (← id "flag name")
    | .gcFlagComplete => return .flagComplete (← id "flag name")
    | _ => throw (n.misplaced "goal condition")

/-- A goal of which some parts may not be known yet. -/
structure GoalDraft where
  name : Option String := none
  desc : Option String := none
  group : Option GoalGroup := none
  start : Option Goal.Condition := none
  done : Option Goal.Condition := none
  fail : Option Goal.Condition := none

/-- A draft with one more statement. -/
def goalStatement (draft : GoalDraft) (n : Node) : Collecting GoalDraft := do
  match n.rule with
  | .goalName =>
    let name ← n.parts (string "goal name")
    return { draft with name := ← setOnce draft.name "goal name" n.span name }
  | .goalDesc =>
    let desc ← n.parts (string "goal description")
    return { draft with desc := ← setOnce draft.desc "goal description" n.span desc }
  | .goalGroup =>
    let t ← n.parts (token "goal group")
    let group ← meaning "goal group" GoalGroup.words GoalGroup.ofWord? t
    return { draft with group := ← setOnce draft.group "goal group" n.span group }
  | .goalStart =>
    let condition ← goalCondition (← n.parts (child "start condition"))
    return { draft with start := ← setOnce draft.start "goal start" n.span condition }
  | .goalDone =>
    let condition ← goalCondition (← n.parts (child "done condition"))
    return { draft with done := ← setOnce draft.done "goal done" n.span condition }
  | .goalFail =>
    let condition ← goalCondition (← n.parts (child "fail condition"))
    return { draft with fail := ← setOnce draft.fail "goal fail" n.span condition }
  | _ => throw (n.misplaced "goal statement")

/-- A goal; the first statement with a fault ends the reading of its statements. -/
def goal (n : Node) : Collecting Goal := do
  let (id, rest) ← n.head (id "goal id")
  let draft ← (Element.nodes rest).foldlM goalStatement {}
  if (Element.nodes rest).isEmpty then throw (.empty "goal block" n.span)
  let name ← require draft.name "goal name" n.span
  let desc ← require draft.desc "goal description" n.span
  let group ← require draft.group "goal group" n.span
  let start ← require draft.start "goal start" n.span
  let done ← require draft.done "goal done" n.span
  return { id, name, desc, group, start, done, fail := draft.fail, span := n.span }

end Storyworld.Shape
