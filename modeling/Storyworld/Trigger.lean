import Storyworld.Action
import Storyworld.Event

namespace Storyworld

/-! Triggers tie what the player does to what then happens. -/

structure Trigger where
  name : String
  onlyOnce : Bool
  notes : List String
  event : Event
  block : List Statement
  span : Span

end Storyworld
