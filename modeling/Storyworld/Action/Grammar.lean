import Storyworld.Condition.Grammar

namespace Storyworld.Grammar

/-! The grammar of actions and of the statements that order them. An action can be a schedule, whose
body orders actions again. -/

def actionStarters : List String :=
  ["show", "add", "remove", "reset", "advance", "replace", "spawn", "despawn", "award", "lock",
    "unlock", "reveal", "push", "set", "npc", "deny", "restrict", "give", "spinner", "modify",
    "schedule"]

/-! ## Effects -/

def addAction : Parse (Rule × List Element) := do
  if ← eatKeyword "flag" then return (.actAddFlag, [.token (← word "flag name")])
  else if ← eatKeyword "seq" then
    keyword "flag"
    let flag ← word "flag name"
    if ← atKeyword "limit" then
      let limit ← keywordThenNumber .limit "limit"
      return (.actAddSeqFlag, [flag, limit])
    else return (.actAddSeqFlag, [flag])
  else if ← eatKeyword "wedge" then
    let text ← string
    let width ← optional "width" (keywordThenNumber .width "width")
    keyword "spinner"
    let spinner ← word "spinner id"
    return (.actAddWedge, .token text :: width ++ [.token spinner])
  else unexpected ["flag", "seq", "wedge"]

def flagAction (rule : Rule) : Parse (Rule × List Element) := do
  keyword "flag"
  return (rule, [.token (← word "flag name")])

def replaceAction : Parse (Rule × List Element) := do
  let rule := if ← eatKeyword "drop" then Rule.actReplaceDropItem else .actReplaceItem
  keyword "item"
  let old ← word "item id"
  keyword "with"
  let new ← word "replacement item id"
  return (rule, [old, new])

def spawnAction : Parse (Rule × List Element) := do
  if ← eatKeyword "npc" then
    let npc ← word "npc id"
    keyword "into"
    keyword "room"
    let room ← word "room id"
    return (.actSpawnNpc, [npc, room])
  else
    let _ ← oneOf ["item", "npc"]
    let item ← word "item id"
    if ← eatKeyword "into" then
      let target ← oneOf ["room", "container"]
      let rule :=
        if target.text = "room" then Rule.actSpawnItemRoom else .actSpawnItemContainer
      let id ← word "id"
      return (rule, [item, id])
    else if ← eatKeyword "in" then
      let target ← oneOf ["container", "inventory", "current"]
      if target.text = "container" then
        let container ← word "container item id"
        return (.actSpawnItemContainer, [item, container])
      else if target.text = "inventory" then return (.actSpawnItemInventory, [item])
      else
        keyword "room"
        return (.actSpawnItemCurrentRoom, [item])
    else unexpected ["into", "in"]

def despawnAction : Parse (Rule × List Element) := do
  let what ← oneOf ["item", "npc"]
  let rule := if what.text = "item" then Rule.actDespawnItem else .actDespawnNpc
  return (rule, [.token (← word "id")])

def awardAction : Parse (Rule × List Element) := do
  keyword "points"
  let amount ← number
  if ← atKeyword "reason" then
    let reason ← keywordThenString .reason "reason"
    return (.actAwardPoints, [amount, reason])
  else return (.actAwardPoints, [amount])

/-- Locking and unlocking, of items and of exits. -/
def lockAction (itemRule exitRule : Rule) : Parse (Rule × List Element) := do
  let what ← oneOf ["item", "exit"]
  if what.text = "item" then return (itemRule, [.token (← word "item id")])
  else
    keyword "from"
    let room ← word "room id"
    keyword "direction"
    let direction ← wordOrString "direction"
    return (exitRule, [room, direction])

def revealAction : Parse (Rule × List Element) := do
  keyword "exit"
  keyword "from"
  let origin ← word "room id"
  keyword "to"
  let target ← word "room id"
  keyword "direction"
  let direction ← wordOrString "direction"
  return (.actRevealExit, [origin, target, direction])

def pushAction : Parse (Rule × List Element) := do
  keyword "player"
  keyword "to"
  return (.actPushPlayer, [.token (← word "room id")])

def setNpcAction : Parse (Rule × List Element) := do
  let field ← oneOf ["active", "state"]
  let npc ← word "npc id"
  if field.text = "active" then
    let active ← boolean
    return (.actSetNpcActive, [npc, active])
  else
    let state ← mood
    return (.actSetNpcState, [npc, state])

def setAction : Parse (Rule × List Element) := do
  let what ← oneOf ["item", "npc", "barred", "container"]
  if what.text = "item" then
    keyword "description"
    let item ← word "item id"
    let text ← string
    return (.actSetItemDesc, [item, text])
  else if what.text = "npc" then setNpcAction
  else if what.text = "barred" then
    keyword "message"
    keyword "from"
    let origin ← word "room id"
    keyword "to"
    let target ← word "room id"
    let message ← string
    return (.actSetBarredMessage, [origin, target, message])
  else
    keyword "state"
    let item ← word "item id"
    let state ← word "container state"
    return (.actSetContainerState, [item, state])

def npcAction : Parse (Rule × List Element) := do
  let what ← oneOf ["says", "random", "refuse"]
  if what.text = "says" then
    let npc ← word "npc id"
    let quote ← string
    return (.actNpcSays, [npc, quote])
  else if what.text = "random" then
    keyword "dialogue"
    return (.actNpcRandomDialogue, [.token (← word "npc id")])
  else
    keyword "item"
    let npc ← word "npc id"
    let reason ← string
    return (.actNpcRefuseItem, [npc, reason])

def giveAction : Parse (Rule × List Element) := do
  keyword "item"
  let item ← word "item id"
  keyword "to"
  keyword "player"
  keyword "from"
  keyword "npc"
  let npc ← word "npc id"
  return (.actGiveItemToPlayer, [item, npc])

/-! ## Changes to an item -/

def patchStarters : List String :=
  ["name", "desc", "description", "text", "portable", "restricted", "container", "add", "remove"]

def patchStatement : Parse Node := do
  if ← atKeyword "name" then keywordThenString .patchName "name"
  else if ← atOneOf ["desc", "description"] then description .patchDesc
  else if ← atKeyword "text" then keywordThenString .patchText "text"
  else if ← atKeyword "portable" then keywordThenBoolean .patchPortable "portable"
  else if ← atKeyword "restricted" then keywordThenBoolean .patchRestricted "restricted"
  else if ← atKeyword "container" then containerState .patchContainerState
  else
    nodeBy do
      let which ← oneOf ["add", "remove"]
      let rule := if which.text = "remove" then Rule.patchRemoveAbility else .patchAddAbility
      return (rule, [.node (← ability)])

def modifyAction : Parse (Rule × List Element) := do
  keyword "item"
  let item ← word "item id"
  let patches ← blockOf patchStarters patchStatement
  return (.actModifyItem, .token item :: patches.map .node)

/-! ## Schedules -/

/-- What to do when the guard is false. -/
def onFalse : Parse Node :=
  nodeBy do
    keyword "onFalse"
    let policy ← oneOf ["cancel", "retryNextTurn", "retryAfter"]
    if policy.text = "cancel" then return (.onFalseCancel, [])
    else if policy.text = "retryNextTurn" then return (.onFalseRetryNextTurn, [])
    else return (.onFalseRetryAfter, [.token (← number)])

/-- The guard of a schedule, which may be left out, and the rule that follows from it. -/
def scheduleGuard (guard : Parse Node) : Parse (Rule × List Element) := do
  if ← eatKeyword "if" then
    let condition ← guard
    let retry ← optional "onFalse" onFalse
    return (.actScheduleIf, .node condition :: retry)
  else return (.actSchedule, [])

/-- `schedule in|on TURNS`, perhaps with a guard and a note, and what is scheduled. -/
def scheduleAction (guard body : Parse Node) : Parse (Rule × List Element) := do
  let anchor ← oneOf ["in", "on"]
  let turns ← number
  let (rule, guards) ← scheduleGuard guard
  let notes ← optional "note" (keywordThenString .note "note")
  let statements ← body
  return (rule, .token anchor :: .token turns :: guards ++ notes ++ [.node statements])

/-! ## Actions -/

/-- An action, told by its first word; `guard` and `body` read the parts of a schedule. -/
def actionOver (guard body : Parse Node) : Parse Node :=
  nodeBy do
    let head ← oneOf actionStarters
    match head.text with
    | "show" => return (.actShow, [.token (← string)])
    | "add" => addAction
    | "remove" => flagAction .actRemoveFlag
    | "reset" => flagAction .actResetFlag
    | "advance" => flagAction .actAdvanceFlag
    | "replace" => replaceAction
    | "spawn" => spawnAction
    | "despawn" => despawnAction
    | "award" => awardAction
    | "lock" => lockAction .actLockItem .actLockExit
    | "unlock" => lockAction .actUnlockItem .actUnlockExit
    | "reveal" => revealAction
    | "push" => pushAction
    | "set" => setAction
    | "npc" => npcAction
    | "deny" =>
      keyword "read"
      return (.actDenyRead, [.token (← string)])
    | "restrict" =>
      keyword "item"
      return (.actRestrictItem, [.token (← word "item id")])
    | "give" => giveAction
    | "spinner" =>
      keyword "message"
      return (.actSpinnerMessage, [.token (← word "spinner id")])
    | "modify" => modifyAction
    | _ => scheduleAction guard body

/-! ## Statements -/

/-- `do ACTION` -/
def deed (action : Parse Node) : Parse Node :=
  node .doStmt do
    keyword "do"
    return [.node (← action)]

/-- `if CONDITION` and deeds in braces; a condition inside them is a fault of its own. -/
def branch (condition action : Parse Node) : Parse Node :=
  node .condBlock do
    keyword "if"
    let condition ← condition
    let deeds ← block ["do"] do
      if ← atKeyword "do" then deed action
      else if ← atKeyword "if" then throw ⟨.nestedConditional, ← here⟩
      else unexpected ["do", "\x7d"]
    return .node condition :: deeds.map .node

/-- The statements of a trigger or a schedule. -/
def statements (condition action : Parse Node) : Parse Node :=
  node .triggerBlock do
    let statements ← blockOf ["do", "if"] do
      if ← atKeyword "do" then deed action else branch condition action
    return statements.map .node

/-- An action in which at most `levels` schedules and condition groups lie inside one another. -/
def action : (levels : Nat) → Parse Node
  | 0 => actionOver (condition 0 .standalone) tooDeep
  | levels + 1 =>
    actionOver (condition (levels + 1) .standalone) fun x s =>
      statements (condition levels .standalone) (action levels) x s

end Storyworld.Grammar
