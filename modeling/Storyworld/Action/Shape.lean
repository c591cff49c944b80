import Storyworld.Action
import Storyworld.Condition.Shape
import Storyworld.Shape.Collecting

namespace Storyworld.Shape

/-! Actions out of their nodes, and the statements that order them. -/

/-! ## Effects -/

/-- The number in a node, if the node is there. -/
def countIn? (rule : Rule) (what : String) : Reading (Option UInt32) := do
  match ← childOf? [rule] with
  | some n => return some (← n.parts (count what))
  | none => return none

/-- The string in a node, if the node is there. -/
def stringIn? (rule : Rule) (what : String) : Reading (Option String) := do
  match ← childOf? [rule] with
  | some n => return some (← n.parts (string what))
  | none => return none

/-- The weight of a wedge, if it is given. -/
def width? : Reading (Option UInt32) := do
  match ← childOf? [.width] with
  | some n => return some (← n.parts (positive "wedge width"))
  | none => return none

/-- What happens at once, a change to an item apart. -/
def effect (n : Node) : Except ShapeFault Effect :=
  n.parts do
    match n.rule with
    | .actShow => return .showText (← string "message")
    | .actAddFlag => return .addFlag (← id "flag name")
    | .actRemoveFlag => return .removeFlag (← id "flag name")
    | .actResetFlag => return .resetFlag (← id "flag name")
    | .actAdvanceFlag => return .advanceFlag (← id "flag name")
    | .actAddSeqFlag =>
      let flag ← id "flag name"
      let limit ← countIn? .limit "seq flag limit"
      return .addSeqFlag flag limit
    | .actAddWedge =>
      let text ← string "wedge text"
      let width ← width?
      let spinner ← id "spinner id"
      return .addWedge spinner text width
    | .actReplaceItem =>
      let old ← id "item id"
      let new ← id "replacement item id"
      return .replaceItem old new
    | .actReplaceDropItem =>
      let old ← id "item id"
      let new ← id "replacement item id"
      return .replaceDropItem old new
    | .actSpawnItemRoom =>
      let item ← id "item id"
      let room ← id "room id"
      return .spawnItemIntoRoom item room
    | .actSpawnItemContainer =>
      let item ← id "item id"
      let container ← id "container item id"
      return .spawnItemIntoContainer item container
    | .actSpawnItemInventory => return .spawnItemInInventory (← id "item id")
    | .actSpawnItemCurrentRoom => return .spawnItemInCurrentRoom (← id "item id")
    | .actSpawnNpc =>
      let npc ← id "npc id"
      let room ← id "room id"
      return .spawnNpcIntoRoom npc room
    | .actDespawnItem => return .despawnItem (← id "item id")
    | .actDespawnNpc => return .despawnNpc (← id "npc id")
    | .actAwardPoints =>
      let (amount, _) ← number "points"
      let reason ← stringIn? .reason "reason"
      return .awardPoints amount reason
    | .actLockItem => return .lockItem (← id "item id")
    | .actUnlockItem => return .unlockItem (← id "item id")
    | .actLockExit =>
      let origin ← id "room id"
      let direction ← wordOrString "direction"
      return .lockExit origin direction
    | .actUnlockExit =>
      let origin ← id "room id"
      let direction ← wordOrString "direction"
      return .unlockExit origin direction
    | .actRevealExit =>
      let origin ← id "room id"
      let target ← id "room id"
      let direction ← wordOrString "direction"
      return .revealExit origin target direction
    | .actPushPlayer => return .pushPlayerTo (← id "room id")
    | .actSetItemDesc =>
      let item ← id "item id"
      let text ← string "description"
      return .setItemDescription item text
    | .actNpcSays =>
      let npc ← id "npc id"
      let quote ← string "quote"
      return .npcSays npc quote
    | .actNpcRandomDialogue => return .npcRandomDialogue (← id "npc id")
    | .actNpcRefuseItem =>
      let npc ← id "npc id"
      let reason ← string "refusal"
      return .npcRefuseItem npc reason
    | .actSetNpcActive =>
      let npc ← id "npc id"
      let active ← boolean "active"
      return .setNpcActive npc active
    | .actSetNpcState =>
      let npc ← id "npc id"
      let state ← child "npc state"
      return .setNpcState npc (← lenientMood state)
    | .actDenyRead => return .denyRead (← string "message")
    | .actRestrictItem => return .restrictItem (← id "item id")
    | .actGiveItemToPlayer =>
      let item ← id "item id"
      let npc ← id "npc id"
      return .giveItemToPlayer item npc
    | .actSetBarredMessage =>
      let origin ← id "room id"
      let target ← id "room id"
      let message ← string "barred message"
      return .setBarredMessage origin target message
    | .actSetContainerState =>
      let item ← id "item id"
      let state ← token "container state"
      return .setContainerState item (← containerState state)
    | .actSpinnerMessage => return .spinnerMessage (← id "spinner id")
    | _ => throw (n.misplaced "action")

/-! ## Changes to an item -/

/-- The words a change can give as a container's state: the states, and `off` for none. -/
def containerPatchWords : List String :=
  ContainerState.words ++ ["off"]

def containerPatch (t : Token) : Except ShapeFault ContainerPatch :=
  meaning "container state" containerPatchWords
    (fun w => if w = "off" then some .remove else (ContainerState.ofWord? w).map .set) t

/-- A patch with one more change. -/
def patchStatement (patch : ItemPatch) (n : Node) : Collecting ItemPatch := do
  match n.rule with
  | .patchName =>
    let name ← n.parts (string "name")
    return { patch with name := ← setOnce patch.name "patched name" n.span name }
  | .patchDesc =>
    let desc ← n.parts (string "description")
    return { patch with desc := ← setOnce patch.desc "patched description" n.span desc }
  | .patchText =>
    let text ← n.parts (string "text")
    return { patch with text := ← setOnce patch.text "patched text" n.span text }
  | .patchPortable =>
    let portable ← n.parts (boolean "portable")
    return { patch with portable := ← setOnce patch.portable "patched portable" n.span portable }
  | .patchRestricted =>
    let restricted ← n.parts (boolean "restricted")
    return { patch with
      restricted := ← setOnce patch.restricted "patched restricted" n.span restricted }
  | .patchContainerState =>
    let state ← containerPatch (← n.parts (token "container state"))
    return { patch with
      containerState := ← setOnce patch.containerState "patched container state" n.span state }
  | .patchAddAbility =>
    let added ← ability (← n.parts (child "ability"))
    return { patch with addAbilities := patch.addAbilities ++ [added] }
  | .patchRemoveAbility =>
    let removed ← ability (← n.parts (child "ability"))
    return { patch with removeAbilities := patch.removeAbilities ++ [removed] }
  | _ => throw (n.misplaced "item patch")

def modifyItem (n : Node) : Collecting Effect := do
  let (item, changes) ← n.head (id "item id")
  return .modifyItem item (← (Element.nodes changes).foldlM patchStatement {})

/-! ## Schedules -/

def retryPolicy (n : Node) : Except ShapeFault RetryPolicy :=
  match n.rule with
  | .onFalseCancel => .ok .cancel
  | .onFalseRetryNextTurn => .ok .retryNextTurn
  | _ => n.parts (return .retryAfter (← count "retry turns"))

def anchor : Reading Anchor :=
  return if (← word "schedule anchor") = "on" then .absolute else .fromNow

/-- A schedule without a guard. -/
def plainSchedule (body : Node → Collecting (List Statement)) (n : Node) : Collecting Action := do
  let (anchor, turns, note, bodyNode) ← n.parts do
    let anchor ← anchor
    let turns ← count "schedule turns"
    let note ← stringIn? .note "note"
    let bodyNode ← child "schedule body"
    return (anchor, turns, note, bodyNode)
  return .schedule anchor turns none note (← body bodyNode)

/-- The nodes and values a guarded schedule is made of. -/
structure ScheduleParts where
  anchor : Anchor
  turns : UInt32
  guard : Node
  retry : Option RetryPolicy
  note : Option String
  body : Node

def scheduleParts : Reading ScheduleParts := do
  let anchor ← anchor
  let turns ← count "schedule turns"
  let guard ← child "schedule guard"
  let retry ←
    match ← childOf? [.onFalseCancel, .onFalseRetryNextTurn, .onFalseRetryAfter] with
    | some n => pure (some (← retryPolicy n))
    | none => pure none
  let note ← stringIn? .note "note"
  let body ← child "schedule body"
  return { anchor, turns, guard, retry, note, body }

/-- A schedule with a guard. The body is built even where the guard fails, so that its faults are
recorded too. -/
def guardedSchedule (guard : Node → Except ShapeFault Condition)
    (body : Node → Collecting (List Statement)) (n : Node) : Collecting Action := do
  let parts ← n.parts scheduleParts
  match guard parts.guard with
  | .ok condition =>
    return .schedule parts.anchor parts.turns (some ⟨condition, parts.retry⟩) parts.note
      (← body parts.body)
  | .error fault =>
    discard (keep (body parts.body))
    throw fault

/-! ## Actions -/

/-- An action; `guard` and `body` build the parts of a schedule. -/
def actionOver (guard : Node → Except ShapeFault Condition)
    (body : Node → Collecting (List Statement)) (n : Node) : Collecting Action := do
  match n.rule with
  | .actModifyItem => return .effect (← modifyItem n)
  | .actSchedule => plainSchedule body n
  | .actScheduleIf => guardedSchedule guard body n
  | _ => return .effect (← effect n)

/-! ## Statements -/

def deed (action : Node → Collecting Action) (n : Node) : Collecting Deed := do
  let order ← n.parts (child "action")
  return .mk (← action order) n.span

/-- A branch. Its deeds are built even where its condition fails. -/
def branch (condition : Node → Except ShapeFault Condition) (action : Node → Collecting Action)
    (n : Node) : Collecting Statement := do
  let (conditionNode, rest) ← n.head (child "condition")
  let deeds ← keepAll (deed action) (Element.nodes rest)
  let condition ← condition conditionNode
  if (Element.nodes rest).isEmpty then throw (.empty "if block" n.span)
  return .branch condition deeds n.span

def statement (condition : Node → Except ShapeFault Condition) (action : Node → Collecting Action)
    (n : Node) : Collecting Statement := do
  match n.rule with
  | .doStmt => return .perform (← deed action n)
  | .condBlock => branch condition action n
  | _ => throw (n.misplaced "trigger statement")

/-- The statements of a trigger or a schedule; there has to be one. -/
def statements (condition : Node → Except ShapeFault Condition)
    (action : Node → Collecting Action) (n : Node) : Collecting (List Statement) := do
  if n.nodes.isEmpty then throw (.empty "trigger block" n.span)
  keepAll (statement condition action) n.nodes

/-- An action in which at most `levels` schedules and condition groups, of `limit` in all, lie
inside one another. -/
def action (limit : Nat) : (levels : Nat) → Node → Collecting Action
  | 0, n => actionOver (condition limit 0) (fun body => throw (tooDeep limit body)) n
  | levels + 1, n =>
    actionOver (condition limit (levels + 1))
      (fun body => statements (condition limit levels) (fun m => action limit levels m) body) n

end Storyworld.Shape
