import Storyworld.Action.Grammar
import Storyworld.Event.Grammar

namespace Storyworld.Grammar

/-! The grammar of triggers. -/

/-- The next modifier of a trigger, if another one follows. -/
def triggerModifier : Parse (Option Node) := do
  if ← atKeyword "only once" then
    some <$> node .onlyOnce do
      keyword "only once"
      return []
  else if ← atKeyword "note" then some <$> keywordThenString .note "note"
  else return none

/-- A trigger in which at most `levels` schedules and condition groups lie inside one another. -/
def trigger (levels : Nat) : Parse Node :=
  node .triggerDef do
    keyword "trigger"
    let name ← string
    let modifiers ← many triggerModifier
    if !(← eatKeyword "when") then unexpected ["only once", "note", "when"]
    let event ← event
    let body ← statements (condition levels .standalone) (action levels)
    return .token name :: modifiers.map .node ++ [.node event, .node body]

end Storyworld.Grammar
