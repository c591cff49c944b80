import Storyworld.Action
import Storyworld.Condition.Form
import Storyworld.Item.Form

namespace Storyworld

open Formed

/-! The form of actions and of the statements that order them. -/

/-! ## Effects -/

instance : Formed ContainerPatch where
  form
    | .set state => .wrapped "Set" (form state)
    | .remove => .unit "Remove"
  read? j := do
    match ← j.variant? with
    | ("Set", some contents) => return .set (← read? contents)
    | ("Remove", contents) => Json.bare .remove contents
    | _ => none

instance : Formed ItemPatch where
  form p :=
    .record [("name", form p.name), ("desc", form p.desc), ("text", form p.text),
      ("portable", form p.portable), ("restricted", form p.restricted),
      ("container_state", form p.containerState), ("add_abilities", form p.addAbilities),
      ("remove_abilities", form p.removeAbilities)]
  read? j := do
    let [name, desc, text, portable, restricted, containerState, addAbilities, removeAbilities] ←
      j.columns? ["name", "desc", "text", "portable", "restricted", "container_state",
        "add_abilities", "remove_abilities"] | none
    return {
      name := ← option? name
      desc := ← option? desc
      text := ← option? text
      portable := ← option? portable
      restricted := ← option? restricted
      containerState := ← option? containerState
      addAbilities := ← field? addAbilities
      removeAbilities := ← field? removeAbilities }

instance : Formed Effect where
  form
    | .modifyItem item patch => .fielded "ModifyItem" [("item", form item), ("patch", form patch)]
    | .showText text => .wrapped "Show" (form text)
    | .addFlag flag => .wrapped "AddFlag" (form flag)
    | .removeFlag flag => .wrapped "RemoveFlag" (form flag)
    | .resetFlag flag => .wrapped "ResetFlag" (form flag)
    | .advanceFlag flag => .wrapped "AdvanceFlag" (form flag)
    | .addWedge spinner text width =>
      .fielded "AddWedge" [("spinner", form spinner), ("text", form text), ("width", form width)]
    | .addSeqFlag flag limit => .fielded "AddSeqFlag" [("flag", form flag), ("limit", form limit)]
    | .replaceItem old new => .fielded "ReplaceItem" [("old", form old), ("new", form new)]
    | .replaceDropItem old new => .fielded "ReplaceDropItem" [("old", form old), ("new", form new)]
    | .spawnItemIntoRoom item room =>
      .fielded "SpawnItemIntoRoom" [("item", form item), ("room", form room)]
    | .spawnItemIntoContainer item container =>
      .fielded "SpawnItemIntoContainer" [("item", form item), ("container", form container)]
    | .spawnItemInInventory item => .wrapped "SpawnItemInInventory" (form item)
    | .spawnItemInCurrentRoom item => .wrapped "SpawnItemInCurrentRoom" (form item)
    | .spawnNpcIntoRoom npc room =>
      .fielded "SpawnNpcIntoRoom" [("npc", form npc), ("room", form room)]
    | .despawnNpc npc => .wrapped "DespawnNpc" (form npc)
    | .despawnItem item => .wrapped "DespawnItem" (form item)
    | .awardPoints amount reason =>
      .fielded "AwardPoints" [("amount", form amount), ("reason", form reason)]
    | .lockItem item => .wrapped "LockItem" (form item)
    | .unlockItem item => .wrapped "UnlockItem" (form item)
    | .lockExit origin direction =>
      .fielded "LockExit" [("from", form origin), ("direction", form direction)]
    | .unlockExit origin direction =>
      .fielded "UnlockExit" [("from", form origin), ("direction", form direction)]
    | .revealExit origin target direction =>
      .fielded "RevealExit"
        [("from", form origin), ("to", form target), ("direction", form direction)]
    | .pushPlayerTo room => .wrapped "PushPlayerTo" (form room)
    | .setItemDescription item text =>
      .fielded "SetItemDescription" [("item", form item), ("text", form text)]
    | .npcSays npc quote => .fielded "NpcSays" [("npc", form npc), ("quote", form quote)]
    | .npcRandomDialogue npc => .wrapped "NpcRandomDialogue" (form npc)
    | .npcRefuseItem npc reason =>
      .fielded "NpcRefuseItem" [("npc", form npc), ("reason", form reason)]
    | .setNpcActive npc active =>
      .fielded "SetNpcActive" [("npc", form npc), ("active", form active)]
    | .setNpcState npc state => .fielded "SetNpcState" [("npc", form npc), ("state", form state)]
    | .denyRead text => .wrapped "DenyRead" (form text)
    | .restrictItem item => .wrapped "RestrictItem" (form item)
    | .giveItemToPlayer item npc =>
      .fielded "GiveItemToPlayer" [("item", form item), ("npc", form npc)]
    | .setBarredMessage origin target message =>
      .fielded "SetBarredMessage"
        [("from", form origin), ("to", form target), ("message", form message)]
    | .setContainerState item state =>
      .fielded "SetContainerState" [("item", form item), ("state", form state)]
    | .spinnerMessage spinner => .wrapped "SpinnerMessage" (form spinner)
  read? j := do
    match ← j.variant? with
    | ("ModifyItem", contents) =>
      let [item, patch] ← Json.fields? ["item", "patch"] contents | none
      return .modifyItem (← field? item) (← field? patch)
    | ("Show", some contents) => return .showText (← read? contents)
    | ("AddFlag", some contents) => return .addFlag (← read? contents)
    | ("RemoveFlag", some contents) => return .removeFlag (← read? contents)
    | ("ResetFlag", some contents) => return .resetFlag (← read? contents)
    | ("AdvanceFlag", some contents) => return .advanceFlag (← read? contents)
    | ("AddWedge", contents) =>
      let [spinner, text, width] ← Json.fields? ["spinner", "text", "width"] contents | none
      return .addWedge (← field? spinner) (← field? text) (← option? width)
    | ("AddSeqFlag", contents) =>
      let [flag, limit] ← Json.fields? ["flag", "limit"] contents | none
      return .addSeqFlag (← field? flag) (← option? limit)
    | ("ReplaceItem", contents) =>
      let [old, new] ← Json.fields? ["old", "new"] contents | none
      return .replaceItem (← field? old) (← field? new)
    | ("ReplaceDropItem", contents) =>
      let [old, new] ← Json.fields? ["old", "new"] contents | none
      return .replaceDropItem (← field? old) (← field? new)
    | ("SpawnItemIntoRoom", contents) =>
      let [item, room] ← Json.fields? ["item", "room"] contents | none
      return .spawnItemIntoRoom (← field? item) (← field? room)
    | ("SpawnItemIntoContainer", contents) =>
      let [item, container] ← Json.fields? ["item", "container"] contents | none
      return .spawnItemIntoContainer (← field? item) (← field? container)
    | ("SpawnItemInInventory", some contents) => return .spawnItemInInventory (← read? contents)
    | ("SpawnItemInCurrentRoom", some contents) =>
      return .spawnItemInCurrentRoom (← read? contents)
    | ("SpawnNpcIntoRoom", contents) =>
      let [npc, room] ← Json.fields? ["npc", "room"] contents | none
      return .spawnNpcIntoRoom (← field? npc) (← field? room)
    | ("DespawnNpc", some contents) => return .despawnNpc (← read? contents)
    | ("DespawnItem", some contents) => return .despawnItem (← read? contents)
    | ("AwardPoints", contents) =>
      let [amount, reason] ← Json.fields? ["amount", "reason"] contents | none
      return .awardPoints (← field? amount) (← option? reason)
    | ("LockItem", some contents) => return .lockItem (← read? contents)
    | ("UnlockItem", some contents) => return .unlockItem (← read? contents)
    | ("LockExit", contents) =>
      let [origin, direction] ← Json.fields? ["from", "direction"] contents | none
      return .lockExit (← field? origin) (← field? direction)
    | ("UnlockExit", contents) =>
      let [origin, direction] ← Json.fields? ["from", "direction"] contents | none
      return .unlockExit (← field? origin) (← field? direction)
    | ("RevealExit", contents) =>
      let [origin, target, direction] ← Json.fields? ["from", "to", "direction"] contents | none
      return .revealExit (← field? origin) (← field? target) (← field? direction)
    | ("PushPlayerTo", some contents) => return .pushPlayerTo (← read? contents)
    | ("SetItemDescription", contents) =>
      let [item, text] ← Json.fields? ["item", "text"] contents | none
      return .setItemDescription (← field? item) (← field? text)
    | ("NpcSays", contents) =>
      let [npc, quote] ← Json.fields? ["npc", "quote"] contents | none
      return .npcSays (← field? npc) (← field? quote)
    | ("NpcRandomDialogue", some contents) => return .npcRandomDialogue (← read? contents)
    | ("NpcRefuseItem", contents) =>
      let [npc, reason] ← Json.fields? ["npc", "reason"] contents | none
      return .npcRefuseItem (← field? npc) (← field? reason)
    | ("SetNpcActive", contents) =>
      let [npc, active] ← Json.fields? ["npc", "active"] contents | none
      return .setNpcActive (← field? npc) (← field? active)
    | ("SetNpcState", contents) =>
      let [npc, state] ← Json.fields? ["npc", "state"] contents | none
      return .setNpcState (← field? npc) (← field? state)
    | ("DenyRead", some contents) => return .denyRead (← read? contents)
    | ("RestrictItem", some contents) => return .restrictItem (← read? contents)
    | ("GiveItemToPlayer", contents) =>
      let [item, npc] ← Json.fields? ["item", "npc"] contents | none
      return .giveItemToPlayer (← field? item) (← field? npc)
    | ("SetBarredMessage", contents) =>
      let [origin, target, message] ← Json.fields? ["from", "to", "message"] contents | none
      return .setBarredMessage (← field? origin) (← field? target) (← field? message)
    | ("SetContainerState", contents) =>
      let [item, state] ← Json.fields? ["item", "state"] contents | none
      return .setContainerState (← field? item) (← field? state)
    | ("SpinnerMessage", some contents) => return .spinnerMessage (← read? contents)
    | _ => none

/-! ## Schedules -/

instance : Formed Anchor where
  form
    | .fromNow => .unit "In"
    | .absolute => .unit "On"
  read? j := do
    match ← j.variant? with
    | ("In", contents) => Json.bare .fromNow contents
    | ("On", contents) => Json.bare .absolute contents
    | _ => none

instance : Formed RetryPolicy where
  form
    | .cancel => .unit "Cancel"
    | .retryNextTurn => .unit "RetryNextTurn"
    | .retryAfter turns => .wrapped "RetryAfter" (form turns)
  read? j := do
    match ← j.variant? with
    | ("Cancel", contents) => Json.bare .cancel contents
    | ("RetryNextTurn", contents) => Json.bare .retryNextTurn contents
    | ("RetryAfter", some contents) => return .retryAfter (← read? contents)
    | _ => none

/-- The form of a schedule whose body has the form `body`. -/
def scheduleForm (anchor : Anchor) (turns : UInt32) (guard : Option Guard) (note : Option String)
    (body : Form) : Form :=
  match guard with
  | none =>
    .wrapped "Schedule" <| .record
      [("anchor", form anchor), ("turns", form turns), ("note", form note), ("body", body)]
  | some guard =>
    .wrapped "ScheduleIf" <| .record
      [("anchor", form anchor), ("turns", form turns), ("guard", form guard.condition),
        ("retry", form guard.retry), ("note", form note), ("body", body)]

/-! ## Statements -/

mutual

def Action.toForm : Action → Form
  | .effect effect => form effect
  | .schedule anchor turns guard note body =>
    scheduleForm anchor turns guard note (.list (Statement.toForms body))

def Deed.toForm : Deed → Form
  | .mk action span => .record [("action", action.toForm), ("span", form span)]

def Deed.toForms : List Deed → List Form
  | [] => []
  | d :: ds => d.toForm :: Deed.toForms ds

def Statement.toForm : Statement → Form
  | .perform deed => .wrapped "Do" deed.toForm
  | .branch condition deeds span =>
    .wrapped "If" <| .record
      [("condition", form condition), ("actions", .list (Deed.toForms deeds)), ("span", form span)]

def Statement.toForms : List Statement → List Form
  | [] => []
  | s :: ss => s.toForm :: Statement.toForms ss

end

/-- What a JSON value holds besides the statements of a schedule: how to make the schedule of them,
and the value they are in. -/
def scheduleColumns? (j : Json) : Option ((List Statement → Action) × Json) := do
  match ← j.variant? with
  | ("Schedule", some contents) =>
    let [anchor, turns, note, some body] ←
      contents.columns? ["anchor", "turns", "note", "body"] | none
    let anchor ← field? anchor
    let turns ← field? turns
    let note ← option? note
    return (.schedule anchor turns none note, body)
  | ("ScheduleIf", some contents) =>
    let [anchor, turns, condition, retry, note, some body] ←
      contents.columns? ["anchor", "turns", "guard", "retry", "note", "body"] | none
    let anchor ← field? anchor
    let turns ← field? turns
    let condition ← field? condition
    let retry ← option? retry
    let note ← option? note
    return (.schedule anchor turns (some ⟨condition, retry⟩) note, body)
  | _ => none

/-- What a JSON value holds besides the deeds of a branch: how to make the branch of them, and the
value they are in. -/
def branchColumns? (j : Json) : Option ((List Deed → Statement) × Json) := do
  let [condition, some deeds, span] ← j.columns? ["condition", "actions", "span"] | none
  let condition ← field? condition
  let span ← field? span
  return (fun deeds => .branch condition deeds span, deeds)

/-- The action of a deed, and where the deed stands. -/
def deedColumns? (j : Json) : Option (Json × Span) := do
  let [some action, span] ← j.columns? ["action", "span"] | none
  let span ← field? span
  return (action, span)

namespace Json

theorem variant?_lt {j contents : Json} {name : String}
    (h : j.variant? = some (name, some contents)) : sizeOf contents < sizeOf j := by
  unfold variant? at h
  split at h <;> simp_all
  omega

end Json

theorem scheduleColumns?_lt {j body : Json} {make : List Statement → Action}
    (h : scheduleColumns? j = some (make, body)) : sizeOf body < sizeOf j := by
  simp only [scheduleColumns?, Option.bind_eq_bind, Option.bind_eq_some_iff] at h
  obtain ⟨⟨name, contents⟩, hv, h⟩ := h
  split at h
  · rename_i contents heq
    obtain ⟨rfl, rfl⟩ := Prod.mk.inj heq
    simp only [Option.bind_eq_some_iff] at h
    obtain ⟨columns, hc, h⟩ := h
    split at h <;> simp_all only [Option.bind_eq_some_iff, Option.pure_def, Option.some.injEq,
      Prod.mk.injEq, reduceCtorEq]
    obtain ⟨_, _, _, _, _, _, _, rfl⟩ := h
    exact Nat.lt_trans (Json.columns?_lt hc (by simp)) (Json.variant?_lt hv)
  · rename_i contents heq
    obtain ⟨rfl, rfl⟩ := Prod.mk.inj heq
    simp only [Option.bind_eq_some_iff] at h
    obtain ⟨columns, hc, h⟩ := h
    split at h <;> simp_all only [Option.bind_eq_some_iff, Option.pure_def, Option.some.injEq,
      Prod.mk.injEq, reduceCtorEq]
    obtain ⟨_, _, _, _, _, _, _, _, _, _, _, rfl⟩ := h
    exact Nat.lt_trans (Json.columns?_lt hc (by simp)) (Json.variant?_lt hv)
  · simp at h

theorem branchColumns?_lt {j deeds : Json} {make : List Deed → Statement}
    (h : branchColumns? j = some (make, deeds)) : sizeOf deeds < sizeOf j := by
  simp only [branchColumns?, Option.bind_eq_bind, Option.bind_eq_some_iff] at h
  obtain ⟨columns, hc, h⟩ := h
  split at h <;> simp_all only [Option.bind_eq_some_iff, Option.pure_def, Option.some.injEq,
    Prod.mk.injEq, reduceCtorEq]
  obtain ⟨_, _, _, _, _, rfl⟩ := h
  exact Json.columns?_lt hc (by simp)

theorem deedColumns?_lt {j action : Json} {span : Span}
    (h : deedColumns? j = some (action, span)) : sizeOf action < sizeOf j := by
  simp only [deedColumns?, Option.bind_eq_bind, Option.bind_eq_some_iff] at h
  obtain ⟨columns, hc, h⟩ := h
  split at h <;> simp_all only [Option.bind_eq_some_iff, Option.pure_def, Option.some.injEq,
    Prod.mk.injEq, reduceCtorEq]
  obtain ⟨_, _, rfl, _⟩ := h
  exact Json.columns?_lt hc (by simp)

mutual

/-- Reads an action back; one that is no schedule is an effect. -/
def Action.ofJson? (j : Json) : Option Action :=
  match _h : scheduleColumns? j with
  | some (make, .array items) => (Statement.ofJsons? items).map make
  | some _ => none
  | none => (read? j).map .effect
termination_by sizeOf j
decreasing_by
  have := scheduleColumns?_lt _h
  simp at this
  omega

def Deed.ofJson? (j : Json) : Option Deed :=
  match _h : deedColumns? j with
  | some (action, span) => (Action.ofJson? action).map (Deed.mk · span)
  | none => none
termination_by sizeOf j
decreasing_by exact deedColumns?_lt _h

def Deed.ofJsons? : List Json → Option (List Deed)
  | [] => some []
  | j :: js =>
    match Deed.ofJson? j, Deed.ofJsons? js with
    | some d, some ds => some (d :: ds)
    | _, _ => none
termination_by js => sizeOf js

def Statement.ofJson? (j : Json) : Option Statement :=
  match _h : j.variant? with
  | some ("Do", some contents) => (Deed.ofJson? contents).map .perform
  | some ("If", some contents) =>
    match _hb : branchColumns? contents with
    | some (make, .array items) => (Deed.ofJsons? items).map make
    | _ => none
  | _ => none
termination_by sizeOf j
decreasing_by
  · exact Json.variant?_lt _h
  · have := branchColumns?_lt _hb
    have := Json.variant?_lt _h
    simp at *
    omega

def Statement.ofJsons? : List Json → Option (List Statement)
  | [] => some []
  | j :: js =>
    match Statement.ofJson? j, Statement.ofJsons? js with
    | some s, some ss => some (s :: ss)
    | _, _ => none
termination_by js => sizeOf js

end

instance : Formed Action where
  form := Action.toForm
  read? := Action.ofJson?

instance : Formed Statement where
  form := Statement.toForm
  read? := Statement.ofJson?

end Storyworld
