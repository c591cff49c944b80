import Storyworld.Action.Shape
import Storyworld.Event.Shape
import Storyworld.Trigger

namespace Storyworld.Shape

/-! Triggers out of their nodes. -/

/-- The notes among the modifiers of a trigger. -/
def notes (modifiers : List Node) : Except ShapeFault (List String) :=
  (modifiers.filter (·.rule = .note)).mapM fun n => n.parts (string "note")

/-- A trigger in which at most `limit` schedules and condition groups lie inside one another. -/
def trigger (limit : Nat) (n : Node) : Collecting Trigger := do
  let (name, modifiers, notes, event, block) ← n.parts do
    let name ← string "trigger name"
    let modifiers ← childrenOf [.onlyOnce, .note]
    let notes ← notes modifiers
    let event ← event (← child "trigger event")
    let block ← child "trigger block"
    return (name, modifiers, notes, event, block)
  let block ← statements (condition limit limit) (action limit limit) block
  return { name, onlyOnce := modifiers.any (·.rule = .onlyOnce), notes, event, block,
           span := n.span }

end Storyworld.Shape
