import Storyworld.Proofs.Tree.Every
import Storyworld.Text.Integer
import Mathlib.Data.List.TakeWhile

namespace Storyworld

/-! What the parts of a construct have to be: for every rule a row of slots, read from left to
right. The grammar fills the slots and building relies on them, so the table is all that the two
know of each other. -/

/-! ## Families of rules -/

namespace Rule

def definitions : List Rule :=
  [setDecl, roomDef, itemDef, npcDef, triggerDef, spinnerDef, goalDef]

def moods : List Rule :=
  [stateWord, stateCustom]

def exitOptions : List Rule :=
  [exitRequiredItems, exitRequiredFlags, exitBarred, exitHidden, exitLocked]

def overlayConditions : List Rule :=
  [ovFlagSet, ovFlagUnset, ovFlagComplete, ovItemPresent, ovItemAbsent, ovPlayerHasItem,
    ovPlayerMissingItem, ovNpcPresent, ovNpcAbsent, ovNpcInState, ovItemInRoom]

def overlays : List Rule :=
  [overlayFlagBinary, overlayItemPresence, overlayNpcPresence, overlayNpcStates,
    overlayConditional]

def roomStatements : List Rule :=
  [roomName, roomDesc, roomVisited, exit] ++ overlays

def itemLocations : List Rule :=
  [locInventory, locRoom, locChest, locNpc, locNowhere]

def consumableStatements : List Rule :=
  [consumableUses, consumeOn, whenConsumedDespawn, whenConsumedReplaceInventory,
    whenConsumedReplaceRoom]

def itemStatements : List Rule :=
  [itemName, itemDesc, itemPortable, itemRestricted, ability, itemText, itemContainerState,
    itemRequires, consumable] ++ itemLocations

def movementOptions : List Rule :=
  [movementTiming, movementActive, movementLoop]

def npcStatements : List Rule :=
  [npcName, npcDesc, locRoom, locNowhere, npcState, npcMovement, dialogue]

def modifiers : List Rule :=
  [onlyOnce, note]

def statements : List Rule :=
  [doStmt, condBlock]

def events : List Rule :=
  [evAlways, evEnterRoom, evLeaveRoom, evTakeItem, evTakeFromNpc, evDropItem, evOpenItem,
    evUnlockItem, evLookAtItem, evTalkToNpc, evUseItem, evUseItemOnItem, evActOnItem, evGiveToNpc,
    evInsertItem, evIngest]

def groups : List Rule :=
  [condAny, condAll]

def queries : List Rule :=
  [condHasFlag, condMissingFlag, condHasItem, condMissingItem, condHasVisited, condFlagInProgress,
    condFlagComplete, condWithNpc, condNpcHasItem, condNpcInState, condPlayerInRoom,
    condContainerHasItem, condChance, condAmbient, condInRooms]

def conditions : List Rule :=
  groups ++ queries

def patches : List Rule :=
  [patchName, patchDesc, patchText, patchPortable, patchRestricted, patchContainerState,
    patchAddAbility, patchRemoveAbility]

/-- What happens at once, a change to an item apart. -/
def effects : List Rule :=
  [actShow, actAddFlag, actRemoveFlag, actResetFlag, actAdvanceFlag, actAddWedge, actAddSeqFlag,
    actReplaceItem, actReplaceDropItem, actSpawnItemRoom, actSpawnItemContainer,
    actSpawnItemInventory, actSpawnItemCurrentRoom, actSpawnNpc, actDespawnNpc, actDespawnItem,
    actAwardPoints, actLockItem, actUnlockItem, actLockExit, actUnlockExit, actRevealExit,
    actPushPlayer, actSetItemDesc, actNpcSays, actNpcRandomDialogue, actNpcRefuseItem,
    actSetNpcActive, actSetNpcState, actDenyRead, actRestrictItem, actGiveItemToPlayer,
    actSetBarredMessage, actSetContainerState, actSpinnerMessage]

def schedules : List Rule :=
  [actSchedule, actScheduleIf]

def actions : List Rule :=
  [actModifyItem, actSchedule, actScheduleIf] ++ effects

def retries : List Rule :=
  [onFalseCancel, onFalseRetryNextTurn, onFalseRetryAfter]

def goalConditions : List Rule :=
  [gcHasFlag, gcMissingFlag, gcHasItem, gcReachedRoom, gcGoalComplete, gcFlagInProgress,
    gcFlagComplete]

def goalStatements : List Rule :=
  [goalName, goalDesc, goalGroup, goalStart, goalDone, goalFail]

end Rule

/-! ## Slots -/

/-- What a part can be. -/
inductive Part where
  | word
  | string
  /-- A word or a string. -/
  | label
  /-- A number that fits a signed 64-bit word. -/
  | number
  | boolean
  /-- A reserved word that was kept for the choice it makes. -/
  | choice (words : List String)
  | node (rules : List Rule)
deriving DecidableEq, Repr

/-- How often a part stands in its place. -/
inductive Slot where
  | one (part : Part)
  | optional (part : Part)
  | many (part : Part)
deriving DecidableEq, Repr

namespace Slot

/-- What stands in the slot. -/
def part : Slot → Part
  | one p => p
  | optional p => p
  | many p => p

end Slot

namespace Part

/-- Whether a token can be the part. -/
def admits : Part → Token → Bool
  | word, t => t.isWord
  | string, t => t.isString
  | label, t => t.isWord || t.isString
  | number, t => t.kind = .number && (Text.Integer.word? t.text.toList).isSome
  | boolean, t => t.kind = .boolean true || t.kind = .boolean false
  | choice words, t => words.contains t.text
  | node _, _ => false

/-- Whether something can be the part. -/
def fits : Part → Element → Bool
  | node rules, .node n => rules.contains n.rule
  | _, .node _ => false
  | part, .token t => part.admits t

end Part

/-- Whether some parts fill a row of slots. A slot that may be empty is filled where it can be. -/
def fill : List Slot → List Element → Bool
  | [], cs => cs.isEmpty
  | .one p :: slots, cs =>
    match cs with
    | c :: cs => p.fits c && fill slots cs
    | [] => false
  | .optional p :: slots, cs =>
    match cs with
    | c :: cs => if p.fits c then fill slots cs else fill slots (c :: cs)
    | [] => fill slots []
  | .many p :: slots, cs => fill slots (cs.dropWhile p.fits)

namespace Rule

/-- The slots of a rule. -/
def slots : Rule → List Slot
  | sourceFile => [.many (.node definitions)]
  | setDecl => [.one .word, .one (.node [idList])]
  | roomDef => [.one .word, .many (.node roomStatements)]
  | itemDef => [.one .word, .many (.node itemStatements)]
  | npcDef => [.one .word, .many (.node npcStatements)]
  | triggerDef =>
    [.one .string, .many (.node modifiers), .one (.node events), .one (.node [triggerBlock])]
  | spinnerDef => [.one .label, .many (.node [wedge])]
  | goalDef => [.one .word, .many (.node goalStatements)]
  | idList => [.many .word]
  | stateWord | stateCustom => [.one .word]
  | ability => [.one .word, .optional .word]
  | note | reason => [.one .string]
  | width | limit => [.one .number]
  | roomName | roomDesc => [.one .string]
  | roomVisited => [.one .boolean]
  | exit => [.one .label, .one .word, .optional (.node [exitBlock])]
  | exitBlock => [.many (.node exitOptions)]
  | exitRequiredItems | exitRequiredFlags => [.one (.node [idList])]
  | exitBarred => [.one .string]
  | exitHidden | exitLocked => []
  | overlayFlagBinary => [.one .word, .many (.node [overlaySetText, overlayUnsetText])]
  | overlayItemPresence | overlayNpcPresence =>
    [.one .word, .many (.node [overlayPresentText, overlayAbsentText])]
  | overlayNpcStates => [.one .word, .many (.node [overlayStateLine])]
  | overlayConditional =>
    [.one (.node overlayConditions), .many (.node overlayConditions), .many (.node [overlayText])]
  | overlaySetText | overlayUnsetText | overlayPresentText | overlayAbsentText | overlayText =>
    [.one .string]
  | overlayStateLine => [.one (.node moods), .one .string]
  | ovFlagSet | ovFlagUnset | ovFlagComplete | ovItemPresent | ovItemAbsent | ovPlayerHasItem
  | ovPlayerMissingItem | ovNpcPresent | ovNpcAbsent => [.one .word]
  | ovNpcInState => [.one .word, .one (.node moods)]
  | ovItemInRoom => [.one .word, .one .word]
  | itemName | itemDesc | itemText => [.one .string]
  | itemPortable | itemRestricted => [.one .boolean]
  | itemContainerState => [.one .word]
  | itemRequires => [.one .word, .one .word]
  | locInventory => []
  | locRoom | locChest | locNpc => [.one .word]
  | locNowhere => [.one .string]
  | consumable => [.many (.node consumableStatements)]
  | consumableUses => [.one .number]
  | consumeOn => [.one (.node [ability])]
  | whenConsumedDespawn => []
  | whenConsumedReplaceInventory | whenConsumedReplaceRoom => [.one .word]
  | npcName | npcDesc => [.one .string]
  | npcState => [.one (.node moods)]
  | npcMovement =>
    [.one (.choice ["route", "random"]), .one (.node [idList]), .many (.node movementOptions)]
  | movementTiming => [.one .word]
  | movementActive | movementLoop => [.one .boolean]
  | dialogue => [.one (.node moods), .many .string]
  | onlyOnce => []
  | triggerBlock => [.many (.node statements)]
  | doStmt => [.one (.node actions)]
  | condBlock => [.one (.node conditions), .many (.node [doStmt])]
  | evAlways => []
  | evEnterRoom | evLeaveRoom | evTakeItem | evDropItem | evOpenItem | evUnlockItem | evLookAtItem
  | evTalkToNpc => [.one .word]
  | evUseItem => [.one .word, .optional .word]
  | evTakeFromNpc | evActOnItem | evGiveToNpc | evInsertItem => [.one .word, .one .word]
  | evUseItemOnItem => [.one .word, .one .word, .one .word]
  | evIngest => [.one (.choice ["eat", "drink", "inhale"]), .one .word]
  | condAny | condAll => [.many (.node conditions)]
  | condHasFlag | condMissingFlag | condHasItem | condMissingItem | condHasVisited
  | condFlagInProgress | condFlagComplete | condWithNpc | condPlayerInRoom => [.one .word]
  | condNpcHasItem | condContainerHasItem => [.one .word, .one .word]
  | condNpcInState => [.one .word, .one (.node moods)]
  | condChance => [.one .number]
  | condAmbient => [.one .word, .optional (.node [idList])]
  | condInRooms => [.one (.node [idList])]
  | actModifyItem => [.one .word, .many (.node patches)]
  | patchName | patchDesc | patchText => [.one .string]
  | patchPortable | patchRestricted => [.one .boolean]
  | patchContainerState => [.one .word]
  | patchAddAbility | patchRemoveAbility => [.one (.node [ability])]
  | actShow | actDenyRead => [.one .string]
  | actAddFlag | actRemoveFlag | actResetFlag | actAdvanceFlag | actSpawnItemInventory
  | actSpawnItemCurrentRoom | actDespawnNpc | actDespawnItem | actLockItem | actUnlockItem
  | actPushPlayer | actNpcRandomDialogue | actRestrictItem | actSpinnerMessage => [.one .word]
  | actAddWedge => [.one .string, .optional (.node [width]), .one .word]
  | actAddSeqFlag => [.one .word, .optional (.node [limit])]
  | actReplaceItem | actReplaceDropItem | actSpawnItemRoom | actSpawnItemContainer | actSpawnNpc
  | actGiveItemToPlayer | actSetContainerState => [.one .word, .one .word]
  | actAwardPoints => [.one .number, .optional (.node [reason])]
  | actLockExit | actUnlockExit => [.one .word, .one .label]
  | actRevealExit => [.one .word, .one .word, .one .label]
  | actSetItemDesc | actNpcSays | actNpcRefuseItem => [.one .word, .one .string]
  | actSetNpcActive => [.one .word, .one .boolean]
  | actSetNpcState => [.one .word, .one (.node moods)]
  | actSetBarredMessage => [.one .word, .one .word, .one .string]
  | actSchedule =>
    [.one (.choice ["in", "on"]), .one .number, .optional (.node [note]),
      .one (.node [triggerBlock])]
  | actScheduleIf =>
    [.one (.choice ["in", "on"]), .one .number, .one (.node conditions),
      .optional (.node retries), .optional (.node [note]), .one (.node [triggerBlock])]
  | onFalseCancel | onFalseRetryNextTurn => []
  | onFalseRetryAfter => [.one .number]
  | wedge => [.one .string, .optional (.node [width])]
  | goalName | goalDesc => [.one .string]
  | goalGroup => [.one .word]
  | goalStart | goalDone | goalFail => [.one (.node goalConditions)]
  | gcHasFlag | gcMissingFlag | gcHasItem | gcReachedRoom | gcGoalComplete | gcFlagInProgress
  | gcFlagComplete => [.one .word]

end Rule

/-- Whether the parts of a node fill the slots of its rule. -/
def Node.isFilled (n : Node) : Bool :=
  fill n.rule.slots n.children

/-! ## Filling slots -/

variable {p : Part} {slots : List Slot} {c : Element} {cs : List Element}

@[simp] theorem fill_nil : fill [] cs = cs.isEmpty := rfl

@[simp] theorem fill_one : fill (.one p :: slots) (c :: cs) = (p.fits c && fill slots cs) := rfl

@[simp] theorem fill_one_nil : fill (.one p :: slots) [] = false := rfl

@[simp] theorem fill_optional_nil : fill (.optional p :: slots) [] = fill slots [] := rfl

theorem fill_optional_of_fits (h : p.fits c) :
    fill (.optional p :: slots) (c :: cs) = fill slots cs := by
  simp [fill, h]

theorem fill_optional_of_not_fits (h : p.fits c = false) :
    fill (.optional p :: slots) (c :: cs) = fill slots (c :: cs) := by
  simp [fill, h]

/-- An optional slot that nothing follows is filled by one part or by none. -/
theorem fill_optional_only (h : fill [.optional p] cs) : cs = [] ∨ ∃ c, p.fits c ∧ cs = [c] := by
  cases cs with
  | nil => exact .inl rfl
  | cons c cs =>
      by_cases hc : p.fits c
      · rw [fill_optional_of_fits hc, fill_nil, List.isEmpty_iff] at h
        exact .inr ⟨c, hc, by rw [h]⟩
      · simp [fill_optional_of_not_fits (by simpa using hc)] at h

theorem fill_many : fill (.many p :: slots) cs = fill slots (cs.dropWhile p.fits) := rfl

/-- A row that ends in a repeated slot is filled by what follows if all of it fits. -/
theorem fill_many_nil : fill [.many p] cs ↔ ∀ c ∈ cs, p.fits c := by
  simp only [fill, List.isEmpty_iff]
  exact List.dropWhile_eq_nil_iff

/-- Parts that fit a repeated slot are passed over, also where others follow. -/
theorem fill_many_append {ds : List Element} (h : ∀ c ∈ cs, p.fits c) :
    fill (.many p :: slots) (cs ++ ds) = fill (.many p :: slots) ds := by
  induction cs with
  | nil => rfl
  | cons c cs ih =>
      have hc : p.fits c := h c (by simp)
      have hcs := ih fun d hd => h d (by simp [hd])
      simpa [fill_many, List.dropWhile_cons, hc] using hcs

@[simp] theorem part_one : (Slot.one p).part = p := rfl

@[simp] theorem part_optional : (Slot.optional p).part = p := rfl

@[simp] theorem part_many : (Slot.many p).part = p := rfl

/-- The last part of a row that ends in a single one fits it, and those before it fit the other
slots. -/
theorem fill_concat (h : fill (slots ++ [.one p]) cs) :
    ∃ front c, cs = front ++ [c] ∧ p.fits c ∧ ∀ d ∈ front, ∃ slot ∈ slots, slot.part.fits d := by
  induction slots generalizing cs with
  | nil =>
      cases cs with
      | nil => simp at h
      | cons c cs =>
          rw [List.nil_append, fill_one, Bool.and_eq_true, fill_nil, List.isEmpty_iff] at h
          exact ⟨[], c, by simp [h.2], h.1, by simp⟩
  | cons slot slots ih =>
      rw [List.cons_append] at h
      -- What stands before the other slots fits the first one.
      have hahead (first later : List Element) (hfirst : ∀ d ∈ first, slot.part.fits d)
          (h : fill (slots ++ [.one p]) later) : ∃ front c, first ++ later = front ++ [c] ∧
            p.fits c ∧ ∀ d ∈ front, ∃ slot' ∈ slot :: slots, slot'.part.fits d := by
        obtain ⟨front, c, rfl, hc, hfront⟩ := ih h
        refine ⟨first ++ front, c, by simp, hc, fun d hd => ?_⟩
        rcases List.mem_append.mp hd with hd | hd
        · exact ⟨slot, by simp, hfirst d hd⟩
        · obtain ⟨slot', hslot', hfits⟩ := hfront d hd
          exact ⟨slot', List.mem_cons_of_mem _ hslot', hfits⟩
      cases slot with
      | one q =>
          cases cs with
          | nil => simp at h
          | cons d cs =>
              rw [fill_one, Bool.and_eq_true] at h
              exact hahead [d] _ (by simpa using h.1) h.2
      | optional q =>
          cases cs with
          | nil => exact hahead [] _ (by simp) h
          | cons d cs =>
              by_cases hd : q.fits d
              · rw [fill_optional_of_fits hd] at h
                exact hahead [d] _ (by simpa using hd) h
              · rw [fill_optional_of_not_fits (by simpa using hd)] at h
                exact hahead [] _ (by simp) h
      | many q =>
          rw [fill_many] at h
          rw [← List.takeWhile_append_dropWhile (p := q.fits) (l := cs)]
          exact hahead _ _ (fun d hd => List.mem_takeWhile_imp hd) h

/-- Everything in a row fills one of its slots. -/
theorem exists_fits (h : fill slots cs) (hc : c ∈ cs) : ∃ slot ∈ slots, slot.part.fits c := by
  induction slots generalizing cs with
  | nil =>
      rw [fill_nil, List.isEmpty_iff] at h
      simp [h] at hc
  | cons slot slots ih =>
      have hlater {cs : List Element} (h : fill slots cs) (hc : c ∈ cs) :
          ∃ slot' ∈ slot :: slots, slot'.part.fits c := by
        obtain ⟨slot', hslot', hfits⟩ := ih h hc
        exact ⟨slot', List.mem_cons_of_mem _ hslot', hfits⟩
      cases slot with
      | one p =>
          cases cs with
          | nil => simp at hc
          | cons d cs =>
              rw [fill_one, Bool.and_eq_true] at h
              rcases List.mem_cons.mp hc with rfl | hc
              · exact ⟨.one p, by simp, h.1⟩
              · exact hlater h.2 hc
      | optional p =>
          cases cs with
          | nil => simp at hc
          | cons d cs =>
              by_cases hd : p.fits d
              · rw [fill_optional_of_fits hd] at h
                rcases List.mem_cons.mp hc with rfl | hc
                · exact ⟨.optional p, by simp, hd⟩
                · exact hlater h hc
              · rw [fill_optional_of_not_fits (by simpa using hd)] at h
                exact hlater h hc
      | many p =>
          rw [fill_many] at h
          rw [← List.takeWhile_append_dropWhile (p := p.fits) (l := cs)] at hc
          rcases List.mem_append.mp hc with hc | hc
          · exact ⟨.many p, by simp, List.mem_takeWhile_imp hc⟩
          · exact hlater h hc

/-! ## Rules below rules -/

/-- Whether the nodes that may stand in a slot all follow rules out of some. -/
def Slot.keepsTo (p : Rule → Bool) (slot : Slot) : Bool :=
  match slot.part with
  | .node rules => rules.all p
  | _ => true

/-- Below a rule out of some there are only such rules. -/
def Rule.Closed (p : Rule → Bool) : Prop :=
  ∀ r, p r → r.slots.all (Slot.keepsTo p)

namespace Node

variable {q : Rule → Bool} {n m : Node}

theorem rule_of_fits {rules : List Rule} (h : (Part.node rules).fits (.node n)) : n.rule ∈ rules := by
  simpa [Part.fits] using h

theorem rule_of_keepsTo {slot : Slot} (hq : slot.keepsTo q) (h : slot.part.fits (.node n)) :
    q n.rule := by
  unfold Slot.keepsTo at hq
  cases hp : slot.part with
  | node rules =>
      rw [hp] at hq h
      exact List.all_eq_true.mp hq _ (rule_of_fits h)
  | _ => simp [hp, Part.fits] at h

/-- The nodes of a filled node follow rules that its slots keep to. -/
theorem rule_of_slots (h : n.isFilled)
    (hq : n.rule.slots.all (Slot.keepsTo q)) (hm : m ∈ n.nodes) : q m.rule := by
  obtain ⟨slot, hslot, hfits⟩ := exists_fits h (mem_nodes.mp hm)
  exact rule_of_keepsTo (List.all_eq_true.mp hq slot hslot) hfits

theorem rule_of_closed (hq : Rule.Closed q) (h : n.isFilled) (hr : q n.rule) (hm : m ∈ n.nodes) :
    q m.rule :=
  rule_of_slots h (hq _ hr) hm

theorem rule_of_mem_family {T : Token → Prop} {n m : Node} (hq : Rule.Closed q)
    (h : n.Every (fun m => m.isFilled) T) (hr : q n.rule) (hm : m ∈ n.family) : q m.rule := by
  rcases mem_family.mp hm with rfl | ⟨k, hk, hm⟩
  · exact hr
  · exact rule_of_mem_family hq (h.node hk) (rule_of_closed hq h.here hr hk) hm
termination_by sizeOf n
decreasing_by exact sizeOf_lt hk

end Node

/-! ## Bodies -/

/-- The rules of nodes in which there is no statement. -/
def Rule.isPassive (r : Rule) : Bool :=
  !([sourceFile, triggerDef, triggerBlock] ++ statements ++ schedules).contains r

theorem Rule.closed_isPassive : Closed isPassive := by
  intro r
  cases r <;> decide

namespace Node

/-- A part that holds the statements of a node: there are none in its other parts. -/
structure HasBody (n body : Node) : Prop where
  mem : body ∈ n.nodes
  rule : body.rule = .triggerBlock
  only : ∀ k ∈ n.nodes, k = body ∨ k.rule.isPassive

/-- The body of a trigger or a schedule is its last part. -/
theorem exists_last_body {q : Rule → Bool} {n : Node} (h : n.isFilled)
    (hr : n.rule ∈ .triggerDef :: Rule.schedules)
    (hq : ∀ r ∈ .triggerDef :: Rule.schedules, r.slots.dropLast.all (Slot.keepsTo q)) :
    ∃ front body, n.children = front ++ [.node body] ∧ body.rule = .triggerBlock ∧
      ∀ k ∈ Element.nodes front, q k.rule := by
  have hslots : n.rule.slots = n.rule.slots.dropLast ++ [.one (.node [.triggerBlock])] := by
    have hrule : n.rule = .triggerDef ∨ n.rule = .actSchedule ∨ n.rule = .actScheduleIf := by
      simpa [Rule.schedules] using hr
    rcases hrule with hrule | hrule | hrule <;> rw [hrule] <;> rfl
  rw [isFilled, hslots] at h
  obtain ⟨front, c, hcs, hc, hfront⟩ := fill_concat h
  cases c with
  | token t => simp [Part.fits, Part.admits] at hc
  | node body =>
      refine ⟨front, body, hcs, by simpa using rule_of_fits hc, fun k hk => ?_⟩
      obtain ⟨slot, hslot, hfits⟩ := hfront _ (Element.mem_nodes.mp hk)
      exact rule_of_keepsTo (List.all_eq_true.mp (hq _ hr) slot hslot) hfits

/-- Triggers and schedules have a body. -/
theorem exists_body {n : Node} (h : n.isFilled) (hr : n.rule ∈ .triggerDef :: Rule.schedules) :
    ∃ body, n.HasBody body := by
  obtain ⟨front, body, hcs, hrule, hfront⟩ :=
    exists_last_body (q := Rule.isPassive) h hr (by decide)
  have hnodes : n.nodes = Element.nodes front ++ [body] := by
    rw [nodes, hcs, Element.nodes, List.filterMap_append]
    rfl
  refine ⟨body, by simp [hnodes], hrule, fun k hk => ?_⟩
  rw [hnodes, List.mem_append, List.mem_singleton] at hk
  exact hk.symm.imp_right (hfront k)

/-- A statement in a trigger or a schedule is in its body. -/
theorem HasBody.mem_family {T : Token → Prop} {n m body : Node} (h : n.HasBody body)
    (hn : n.Every (fun m => m.isFilled) T) (hm : m ∈ n.family) (hne : m ≠ n)
    (hr : ¬m.rule.isPassive) : m ∈ body.family := by
  obtain ⟨k, hk, hm⟩ := (Node.mem_family.mp hm).resolve_left hne
  rcases h.only k hk with rfl | hpassive
  · exact hm
  · exact absurd (rule_of_mem_family Rule.closed_isPassive (hn.node hk) hpassive hm) hr

end Node

end Storyworld
