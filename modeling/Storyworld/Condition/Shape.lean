import Storyworld.Condition
import Storyworld.Shape.Word

namespace Storyworld.Shape

/-! Conditions out of their nodes. -/

/-- A chance from one to a hundred. -/
def chance (value : Int64) (span : Span) : Except ShapeFault UInt8 :=
  if 1 ≤ value.toInt ∧ value.toInt ≤ 100 then .ok (UInt8.ofNat value.toInt.toNat)
  else .error (.outOfRange "chance percent" value.toInt span)

/-- A condition that is no group. -/
def query (n : Node) : Except ShapeFault Query :=
  n.parts do
    match n.rule with
    | .condHasFlag => return .hasFlag (← id "flag name")
    | .condMissingFlag => return .missingFlag (← id "flag name")
    | .condHasItem => return .hasItem (← id "item id")
    | .condMissingItem => return .missingItem (← id "item id")
    | .condHasVisited => return .hasVisited (← id "room id")
    | .condFlagInProgress => return .flagInProgress (← id "flag name")
    | .condFlagComplete => return .flagComplete (← id "flag name")
    | .condWithNpc => return .withNpc (← id "npc id")
    | .condNpcHasItem =>
      let npc ← id "npc id"
      let item ← id "item id"
      return .npcHasItem npc item
    | .condNpcInState =>
      let npc ← id "npc id"
      let state ← child "npc state"
      return .npcInState npc (← lenientMood state)
    | .condPlayerInRoom => return .playerInRoom (← id "room id")
    | .condContainerHasItem =>
      let container ← id "container item id"
      let item ← id "item id"
      return .containerHasItem container item
    | .condChance =>
      let (value, span) ← number "chance percent"
      return .chance (← chance value span)
    | .condAmbient =>
      let spinner ← id "spinner id"
      match ← childOf? [.idList] with
      | some list => return .ambient spinner (some (← list.ids "ambient rooms"))
      | none => return .ambient spinner none
    | .condInRooms =>
      let list ← child "room list"
      return .inRooms (← list.ids "room list")
    | _ => throw (n.misplaced "condition")

/-- The fault that a node lies deeper than `limit` levels. -/
def tooDeep (limit : Nat) (n : Node) : ShapeFault :=
  .outOfRange "nesting depth" (min (limit + 1) Int64.maxValue.toInt) n.span

/-- A condition whose members, if it is a group, `member` builds. -/
def conditionOver (member : Node → Except ShapeFault Condition) (n : Node) :
    Except ShapeFault Condition := do
  if n.rule = .condAny || n.rule = .condAll then
    let members ← n.nodes.mapM member
    if members.isEmpty then throw (.empty "condition group" n.span)
    return if n.rule = .condAny then .any members else .all members
  else return .single (← query n)

/-- A condition in which at most `levels` groups, of `limit` in all, lie inside one another. -/
def condition (limit : Nat) : (levels : Nat) → Node → Except ShapeFault Condition
  | 0, n => conditionOver (fun member => .error (tooDeep limit member)) n
  | levels + 1, n => conditionOver (fun member => condition limit levels member) n

end Storyworld.Shape
