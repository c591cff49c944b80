import Storyworld.Grammar.Phrase

namespace Storyworld.Grammar

/-! The grammar of goals. -/

/-- What starts a goal or settles it. -/
def goalCondition : Parse Node :=
  nodeBy do
    let head ← oneOf ["has", "missing", "reached", "goal", "flag"]
    let rule ←
      match head.text with
      | "has" => do
        let what ← oneOf ["flag", "item"]
        pure (if what.text = "flag" then Rule.gcHasFlag else .gcHasItem)
      | "missing" => do
        keyword "flag"
        pure Rule.gcMissingFlag
      | "reached" => do
        keyword "room"
        pure Rule.gcReachedRoom
      | "goal" => do
        keyword "complete"
        pure Rule.gcGoalComplete
      | _ => do
        if ← eatKeyword "in" then
          keyword "progress"
          pure Rule.gcFlagInProgress
        else
          let _ ← oneOf ["in", "complete"]
          pure Rule.gcFlagComplete
    return (rule, [.token (← word "id")])

/-- `start when`, `done when` or `fail when`, and a condition. -/
def goalPhase : Parse Node :=
  nodeBy do
    let phase ← oneOf ["start", "done", "fail"]
    let rule :=
      if phase.text = "start" then Rule.goalStart
      else if phase.text = "done" then .goalDone
      else .goalFail
    keyword "when"
    return (rule, [.node (← goalCondition)])

def goalStarters : List String :=
  ["name", "desc", "description", "group", "start", "done", "fail"]

def goalStatement : Parse Node := do
  if ← atKeyword "name" then keywordThenString .goalName "name"
  else if ← atOneOf ["desc", "description"] then description .goalDesc
  else if ← atKeyword "group" then
    node .goalGroup do
      keyword "group"
      return [.token (← word "goal group")]
  else goalPhase

def goal : Parse Node :=
  node .goalDef do
    keyword "goal"
    let id ← word "goal id"
    let statements ← blockOf goalStarters goalStatement
    return .token id :: statements.map .node

end Storyworld.Grammar
