import Storyworld.Token

namespace Storyworld

/-! The tree of a source: one node per construct, named by the grammar rule it follows. A node keeps
the tokens that carry a value or a choice and leaves out the words that only hold the construct
together. -/

/-- The rules of the grammar. -/
inductive Rule where
  -- the document and its definitions
  | sourceFile
  | setDecl
  | roomDef
  | itemDef
  | npcDef
  | triggerDef
  | spinnerDef
  | goalDef
  -- shared pieces
  | idList
  | stateWord
  | stateCustom
  | ability
  | note
  | width
  | limit
  | reason
  -- room statements
  | roomName
  | roomDesc
  | roomVisited
  | exit
  | exitBlock
  | exitRequiredItems
  | exitRequiredFlags
  | exitBarred
  | exitHidden
  | exitLocked
  | overlayFlagBinary
  | overlayItemPresence
  | overlayNpcPresence
  | overlayNpcStates
  | overlayConditional
  | overlaySetText
  | overlayUnsetText
  | overlayPresentText
  | overlayAbsentText
  | overlayStateLine
  | overlayText
  | ovFlagSet
  | ovFlagUnset
  | ovFlagComplete
  | ovItemPresent
  | ovItemAbsent
  | ovPlayerHasItem
  | ovPlayerMissingItem
  | ovNpcPresent
  | ovNpcAbsent
  | ovNpcInState
  | ovItemInRoom
  -- item statements
  | itemName
  | itemDesc
  | itemPortable
  | itemRestricted
  | itemText
  | itemContainerState
  | itemRequires
  | locInventory
  | locRoom
  | locChest
  | locNpc
  | locNowhere
  | consumable
  | consumableUses
  | consumeOn
  | whenConsumedDespawn
  | whenConsumedReplaceInventory
  | whenConsumedReplaceRoom
  -- npc statements
  | npcName
  | npcDesc
  | npcState
  | npcMovement
  | movementTiming
  | movementActive
  | movementLoop
  | dialogue
  -- triggers
  | onlyOnce
  | triggerBlock
  | doStmt
  | condBlock
  -- events
  | evAlways
  | evEnterRoom
  | evLeaveRoom
  | evTakeItem
  | evTakeFromNpc
  | evDropItem
  | evOpenItem
  | evUnlockItem
  | evLookAtItem
  | evTalkToNpc
  | evUseItem
  | evUseItemOnItem
  | evActOnItem
  | evGiveToNpc
  | evInsertItem
  | evIngest
  -- conditions
  | condAny
  | condAll
  | condHasFlag
  | condMissingFlag
  | condHasItem
  | condMissingItem
  | condHasVisited
  | condFlagInProgress
  | condFlagComplete
  | condWithNpc
  | condNpcHasItem
  | condNpcInState
  | condPlayerInRoom
  | condContainerHasItem
  | condChance
  | condAmbient
  | condInRooms
  -- actions
  | actModifyItem
  | patchName
  | patchDesc
  | patchText
  | patchPortable
  | patchRestricted
  | patchContainerState
  | patchAddAbility
  | patchRemoveAbility
  | actShow
  | actAddFlag
  | actRemoveFlag
  | actResetFlag
  | actAdvanceFlag
  | actAddWedge
  | actAddSeqFlag
  | actReplaceItem
  | actReplaceDropItem
  | actSpawnItemRoom
  | actSpawnItemContainer
  | actSpawnItemInventory
  | actSpawnItemCurrentRoom
  | actSpawnNpc
  | actDespawnNpc
  | actDespawnItem
  | actAwardPoints
  | actLockItem
  | actUnlockItem
  | actLockExit
  | actUnlockExit
  | actRevealExit
  | actPushPlayer
  | actSetItemDesc
  | actNpcSays
  | actNpcRandomDialogue
  | actNpcRefuseItem
  | actSetNpcActive
  | actSetNpcState
  | actDenyRead
  | actRestrictItem
  | actGiveItemToPlayer
  | actSetBarredMessage
  | actSetContainerState
  | actSpinnerMessage
  | actSchedule
  | actScheduleIf
  | onFalseCancel
  | onFalseRetryNextTurn
  | onFalseRetryAfter
  -- spinners
  | wedge
  -- goals
  | goalName
  | goalDesc
  | goalGroup
  | goalStart
  | goalDone
  | goalFail
  | gcHasFlag
  | gcMissingFlag
  | gcHasItem
  | gcReachedRoom
  | gcGoalComplete
  | gcFlagInProgress
  | gcFlagComplete
deriving DecidableEq, Repr

namespace Rule

/-- Every rule. -/
def all : List Rule :=
  [sourceFile, setDecl, roomDef, itemDef, npcDef, triggerDef, spinnerDef, goalDef, idList,
    stateWord, stateCustom, ability, note, width, limit, reason, roomName, roomDesc, roomVisited,
    exit, exitBlock, exitRequiredItems, exitRequiredFlags, exitBarred, exitHidden, exitLocked,
    overlayFlagBinary, overlayItemPresence, overlayNpcPresence, overlayNpcStates,
    overlayConditional, overlaySetText, overlayUnsetText, overlayPresentText, overlayAbsentText,
    overlayStateLine, overlayText, ovFlagSet, ovFlagUnset, ovFlagComplete, ovItemPresent,
    ovItemAbsent, ovPlayerHasItem, ovPlayerMissingItem, ovNpcPresent, ovNpcAbsent, ovNpcInState,
    ovItemInRoom, itemName, itemDesc, itemPortable, itemRestricted, itemText, itemContainerState,
    itemRequires, locInventory, locRoom, locChest, locNpc, locNowhere, consumable,
    consumableUses, consumeOn, whenConsumedDespawn, whenConsumedReplaceInventory,
    whenConsumedReplaceRoom, npcName, npcDesc, npcState, npcMovement, movementTiming,
    movementActive, movementLoop, dialogue, onlyOnce, triggerBlock, doStmt, condBlock, evAlways,
    evEnterRoom, evLeaveRoom, evTakeItem, evTakeFromNpc, evDropItem, evOpenItem, evUnlockItem,
    evLookAtItem, evTalkToNpc, evUseItem, evUseItemOnItem, evActOnItem, evGiveToNpc,
    evInsertItem, evIngest, condAny, condAll, condHasFlag, condMissingFlag, condHasItem,
    condMissingItem, condHasVisited, condFlagInProgress, condFlagComplete, condWithNpc,
    condNpcHasItem, condNpcInState, condPlayerInRoom, condContainerHasItem, condChance,
    condAmbient, condInRooms, actModifyItem, patchName, patchDesc, patchText, patchPortable,
    patchRestricted, patchContainerState, patchAddAbility, patchRemoveAbility, actShow,
    actAddFlag, actRemoveFlag, actResetFlag, actAdvanceFlag, actAddWedge, actAddSeqFlag,
    actReplaceItem, actReplaceDropItem, actSpawnItemRoom, actSpawnItemContainer,
    actSpawnItemInventory, actSpawnItemCurrentRoom, actSpawnNpc, actDespawnNpc, actDespawnItem,
    actAwardPoints, actLockItem, actUnlockItem, actLockExit, actUnlockExit, actRevealExit,
    actPushPlayer, actSetItemDesc, actNpcSays, actNpcRandomDialogue, actNpcRefuseItem,
    actSetNpcActive, actSetNpcState, actDenyRead, actRestrictItem, actGiveItemToPlayer,
    actSetBarredMessage, actSetContainerState, actSpinnerMessage, actSchedule, actScheduleIf,
    onFalseCancel, onFalseRetryNextTurn, onFalseRetryAfter, wedge, goalName, goalDesc, goalGroup,
    goalStart, goalDone, goalFail, gcHasFlag, gcMissingFlag, gcHasItem, gcReachedRoom,
    gcGoalComplete, gcFlagInProgress, gcFlagComplete]

/-- How answers and log messages name a rule. -/
def name : Rule → String
  | sourceFile => "SourceFile"
  | setDecl => "SetDecl"
  | roomDef => "RoomDef"
  | itemDef => "ItemDef"
  | npcDef => "NpcDef"
  | triggerDef => "TriggerDef"
  | spinnerDef => "SpinnerDef"
  | goalDef => "GoalDef"
  | idList => "IdList"
  | stateWord => "StateWord"
  | stateCustom => "StateCustom"
  | ability => "Ability"
  | note => "Note"
  | width => "Width"
  | limit => "Limit"
  | reason => "Reason"
  | roomName => "RoomName"
  | roomDesc => "RoomDesc"
  | roomVisited => "RoomVisited"
  | exit => "Exit"
  | exitBlock => "ExitBlock"
  | exitRequiredItems => "ExitRequiredItems"
  | exitRequiredFlags => "ExitRequiredFlags"
  | exitBarred => "ExitBarred"
  | exitHidden => "ExitHidden"
  | exitLocked => "ExitLocked"
  | overlayFlagBinary => "OverlayFlagBinary"
  | overlayItemPresence => "OverlayItemPresence"
  | overlayNpcPresence => "OverlayNpcPresence"
  | overlayNpcStates => "OverlayNpcStates"
  | overlayConditional => "OverlayConditional"
  | overlaySetText => "OverlaySetText"
  | overlayUnsetText => "OverlayUnsetText"
  | overlayPresentText => "OverlayPresentText"
  | overlayAbsentText => "OverlayAbsentText"
  | overlayStateLine => "OverlayStateLine"
  | overlayText => "OverlayText"
  | ovFlagSet => "OvFlagSet"
  | ovFlagUnset => "OvFlagUnset"
  | ovFlagComplete => "OvFlagComplete"
  | ovItemPresent => "OvItemPresent"
  | ovItemAbsent => "OvItemAbsent"
  | ovPlayerHasItem => "OvPlayerHasItem"
  | ovPlayerMissingItem => "OvPlayerMissingItem"
  | ovNpcPresent => "OvNpcPresent"
  | ovNpcAbsent => "OvNpcAbsent"
  | ovNpcInState => "OvNpcInState"
  | ovItemInRoom => "OvItemInRoom"
  | itemName => "ItemName"
  | itemDesc => "ItemDesc"
  | itemPortable => "ItemPortable"
  | itemRestricted => "ItemRestricted"
  | itemText => "ItemText"
  | itemContainerState => "ItemContainerState"
  | itemRequires => "ItemRequires"
  | locInventory => "LocInventory"
  | locRoom => "LocRoom"
  | locChest => "LocChest"
  | locNpc => "LocNpc"
  | locNowhere => "LocNowhere"
  | consumable => "Consumable"
  | consumableUses => "ConsumableUses"
  | consumeOn => "ConsumeOn"
  | whenConsumedDespawn => "WhenConsumedDespawn"
  | whenConsumedReplaceInventory => "WhenConsumedReplaceInventory"
  | whenConsumedReplaceRoom => "WhenConsumedReplaceRoom"
  | npcName => "NpcName"
  | npcDesc => "NpcDesc"
  | npcState => "NpcState"
  | npcMovement => "NpcMovement"
  | movementTiming => "MovementTiming"
  | movementActive => "MovementActive"
  | movementLoop => "MovementLoop"
  | dialogue => "Dialogue"
  | onlyOnce => "OnlyOnce"
  | triggerBlock => "TriggerBlock"
  | doStmt => "DoStmt"
  | condBlock => "CondBlock"
  | evAlways => "EvAlways"
  | evEnterRoom => "EvEnterRoom"
  | evLeaveRoom => "EvLeaveRoom"
  | evTakeItem => "EvTakeItem"
  | evTakeFromNpc => "EvTakeFromNpc"
  | evDropItem => "EvDropItem"
  | evOpenItem => "EvOpenItem"
  | evUnlockItem => "EvUnlockItem"
  | evLookAtItem => "EvLookAtItem"
  | evTalkToNpc => "EvTalkToNpc"
  | evUseItem => "EvUseItem"
  | evUseItemOnItem => "EvUseItemOnItem"
  | evActOnItem => "EvActOnItem"
  | evGiveToNpc => "EvGiveToNpc"
  | evInsertItem => "EvInsertItem"
  | evIngest => "EvIngest"
  | condAny => "CondAny"
  | condAll => "CondAll"
  | condHasFlag => "CondHasFlag"
  | condMissingFlag => "CondMissingFlag"
  | condHasItem => "CondHasItem"
  | condMissingItem => "CondMissingItem"
  | condHasVisited => "CondHasVisited"
  | condFlagInProgress => "CondFlagInProgress"
  | condFlagComplete => "CondFlagComplete"
  | condWithNpc => "CondWithNpc"
  | condNpcHasItem => "CondNpcHasItem"
  | condNpcInState => "CondNpcInState"
  | condPlayerInRoom => "CondPlayerInRoom"
  | condContainerHasItem => "CondContainerHasItem"
  | condChance => "CondChance"
  | condAmbient => "CondAmbient"
  | condInRooms => "CondInRooms"
  | actModifyItem => "ActModifyItem"
  | patchName => "PatchName"
  | patchDesc => "PatchDesc"
  | patchText => "PatchText"
  | patchPortable => "PatchPortable"
  | patchRestricted => "PatchRestricted"
  | patchContainerState => "PatchContainerState"
  | patchAddAbility => "PatchAddAbility"
  | patchRemoveAbility => "PatchRemoveAbility"
  | actShow => "ActShow"
  | actAddFlag => "ActAddFlag"
  | actRemoveFlag => "ActRemoveFlag"
  | actResetFlag => "ActResetFlag"
  | actAdvanceFlag => "ActAdvanceFlag"
  | actAddWedge => "ActAddWedge"
  | actAddSeqFlag => "ActAddSeqFlag"
  | actReplaceItem => "ActReplaceItem"
  | actReplaceDropItem => "ActReplaceDropItem"
  | actSpawnItemRoom => "ActSpawnItemRoom"
  | actSpawnItemContainer => "ActSpawnItemContainer"
  | actSpawnItemInventory => "ActSpawnItemInventory"
  | actSpawnItemCurrentRoom => "ActSpawnItemCurrentRoom"
  | actSpawnNpc => "ActSpawnNpc"
  | actDespawnNpc => "ActDespawnNpc"
  | actDespawnItem => "ActDespawnItem"
  | actAwardPoints => "ActAwardPoints"
  | actLockItem => "ActLockItem"
  | actUnlockItem => "ActUnlockItem"
  | actLockExit => "ActLockExit"
  | actUnlockExit => "ActUnlockExit"
  | actRevealExit => "ActRevealExit"
  | actPushPlayer => "ActPushPlayer"
  | actSetItemDesc => "ActSetItemDesc"
  | actNpcSays => "ActNpcSays"
  | actNpcRandomDialogue => "ActNpcRandomDialogue"
  | actNpcRefuseItem => "ActNpcRefuseItem"
  | actSetNpcActive => "ActSetNpcActive"
  | actSetNpcState => "ActSetNpcState"
  | actDenyRead => "ActDenyRead"
  | actRestrictItem => "ActRestrictItem"
  | actGiveItemToPlayer => "ActGiveItemToPlayer"
  | actSetBarredMessage => "ActSetBarredMessage"
  | actSetContainerState => "ActSetContainerState"
  | actSpinnerMessage => "ActSpinnerMessage"
  | actSchedule => "ActSchedule"
  | actScheduleIf => "ActScheduleIf"
  | onFalseCancel => "OnFalseCancel"
  | onFalseRetryNextTurn => "OnFalseRetryNextTurn"
  | onFalseRetryAfter => "OnFalseRetryAfter"
  | wedge => "Wedge"
  | goalName => "GoalName"
  | goalDesc => "GoalDesc"
  | goalGroup => "GoalGroup"
  | goalStart => "GoalStart"
  | goalDone => "GoalDone"
  | goalFail => "GoalFail"
  | gcHasFlag => "GcHasFlag"
  | gcMissingFlag => "GcMissingFlag"
  | gcHasItem => "GcHasItem"
  | gcReachedRoom => "GcReachedRoom"
  | gcGoalComplete => "GcGoalComplete"
  | gcFlagInProgress => "GcFlagInProgress"
  | gcFlagComplete => "GcFlagComplete"

def ofName? (n : String) : Option Rule :=
  all.find? (·.name = n)

end Rule

mutual

/-- A construct: its rule, the region from its first token to its last, and its parts. -/
inductive Node where
  | mk (rule : Rule) (span : Span) (children : List Element)

/-- A part of a construct. -/
inductive Element where
  | node (n : Node)
  | token (t : Token)

end

instance : Inhabited Node :=
  ⟨.mk .sourceFile .origin []⟩

namespace Node

def rule : Node → Rule
  | mk r _ _ => r

def span : Node → Span
  | mk _ s _ => s

def children : Node → List Element
  | mk _ _ cs => cs

end Node

namespace Element

def span : Element → Span
  | node n => n.span
  | token t => t.span

def node? : Element → Option Node
  | node n => some n
  | token _ => none

def token? : Element → Option Token
  | node _ => none
  | token t => some t

/-- The nodes among some parts. -/
def nodes (cs : List Element) : List Node :=
  cs.filterMap node?

/-- The tokens among some parts. -/
def tokens (cs : List Element) : List Token :=
  cs.filterMap token?

end Element

instance : Coe Token Element :=
  ⟨.token⟩

instance : Coe Node Element :=
  ⟨.node⟩

namespace Node

/-- The constructs directly inside. -/
def nodes (n : Node) : List Node :=
  Element.nodes n.children

/-- The tokens directly inside. -/
def tokens (n : Node) : List Token :=
  Element.tokens n.children

/-- Whether a construct of some rule lies directly inside. -/
def has (n : Node) (r : Rule) : Bool :=
  n.nodes.any (·.rule = r)

mutual

/-- How many nodes a tree has, its root included. -/
def count : Node → Nat
  | mk _ _ cs => 1 + countAll cs

/-- How many nodes some parts have together. -/
def countAll : List Element → Nat
  | [] => 0
  | c :: cs => countPart c + countAll cs

/-- How many nodes a part has. -/
def countPart : Element → Nat
  | .node n => count n
  | .token _ => 0

end

end Node

/-- What the grammar makes of a source: the tree and where the comments are. -/
structure Tree where
  root : Node
  comments : List Span

end Storyworld
