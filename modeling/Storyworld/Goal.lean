import Storyworld.Id
import Storyworld.Span

namespace Storyworld

/-! Goals the player can pursue. -/

inductive GoalGroup where
  | required
  | optional
  | statusEffect
deriving DecidableEq, Repr

namespace GoalGroup

def all : List GoalGroup :=
  [required, optional, statusEffect]

/-- How a source spells the group. -/
def word : GoalGroup → String
  | required => "required"
  | optional => "optional"
  | statusEffect => "status-effect"

def words : List String :=
  all.map word

def ofWord? (w : String) : Option GoalGroup :=
  all.find? (·.word = w)

end GoalGroup

/-- What starts a goal or settles it. -/
inductive Goal.Condition where
  | hasFlag (flag : Id .flag)
  | missingFlag (flag : Id .flag)
  | hasItem (item : Id .item)
  | reachedRoom (room : Id .room)
  | goalComplete (goal : Id .goal)
  | flagInProgress (flag : Id .flag)
  | flagComplete (flag : Id .flag)
deriving DecidableEq, Repr

structure Goal where
  id : Id .goal
  name : String
  desc : String
  group : GoalGroup
  start : Goal.Condition
  done : Goal.Condition
  fail : Option Goal.Condition
  span : Span
deriving DecidableEq, Repr

end Storyworld
