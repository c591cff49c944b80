import Storyworld.Action.Form
import Storyworld.Event.Form
import Storyworld.Goal.Form
import Storyworld.Npc.Form
import Storyworld.Ron
import Storyworld.Room.Form
import Storyworld.Spinner.Form

namespace Storyworld

/-! How deep the parts of a form lie. What is inside an optional value, a variant, a list or a record
lies one level deeper than these do. -/

namespace Form

mutual

/-- The level of the deepest part of a form, which itself lies at level 0. -/
def levels : Form → Nat
  | text _ | integer _ | boolean _ | absent | unit _ => 0
  | present f | wrapped _ f => levels f + 1
  | list fs => levelsIn fs
  | record fields | fielded _ fields => levelsOf fields

/-- The level of the deepest part of the elements of a list. -/
def levelsIn : List Form → Nat
  | [] => 0
  | f :: fs => max (levels f + 1) (levelsIn fs)

/-- The level of the deepest part of named fields. -/
def levelsOf : List (String × Form) → Nat
  | [] => 0
  | (_, f) :: fields => max (levels f + 1) (levelsOf fields)

end

theorem levelsIn_le {n : Nat} {fs : List Form} :
    levelsIn fs ≤ n ↔ ∀ f ∈ fs, f.levels + 1 ≤ n := by
  induction fs with
  | nil => simp [levelsIn]
  | cons f fs ih => rw [levelsIn, Nat.max_le, ih, List.forall_mem_cons]

theorem levelsOf_le {n : Nat} {fields : List (String × Form)} :
    levelsOf fields ≤ n ↔ ∀ field ∈ fields, field.2.levels + 1 ≤ n := by
  induction fields with
  | nil => simp [levelsOf]
  | cons field fields ih => rw [levelsOf, Nat.max_le, ih, List.forall_mem_cons]

end Form

/-! ## What the writer has levels for -/

namespace Ron

mutual

/-- A form is written if there is a free level for each of its own, and no level is lost over it. -/
theorem levelsAfter?_of_le : ∀ (f : Form) {free : Nat}, f.levels ≤ free →
    ∃ free', levelsAfter? free f = some free' ∧ free ≤ free'
  | .text _, free, _ | .integer _, free, _ | .boolean _, free, _ | .absent, free, _
  | .unit _, free, _ => ⟨free, by rw [levelsAfter?], Nat.le_refl free⟩
  | .present f, free, h | .wrapped _ f, free, h => by
    rw [Form.levels] at h
    obtain ⟨free, rfl⟩ := Nat.exists_eq_add_of_lt h
    obtain ⟨free', hafter, hle⟩ := levelsAfter?_of_le f (Nat.le_add_right f.levels free)
    refine ⟨free' + 1, ?_, by omega⟩
    rw [levelsAfter?, hafter, Option.map_some]
  | .list fs, free, h => by
    rw [Form.levels] at h
    obtain ⟨free', hafter, hle⟩ := levelsAfterList?_of_le fs h
    refine ⟨free' + 1, ?_, by omega⟩
    rw [levelsAfter?, hafter, Option.map_some]
  | .record fields, free, h | .fielded _ fields, free, h => by
    rw [Form.levels] at h
    obtain ⟨free', hafter, hle⟩ := levelsAfterFields?_of_le fields h
    refine ⟨free' + 1, ?_, by omega⟩
    rw [levelsAfter?, hafter, Option.map_some]

theorem levelsAfterList?_of_le : ∀ (fs : List Form) {free : Nat}, Form.levelsIn fs ≤ free →
    ∃ free', levelsAfterList? free fs = some free' ∧ free ≤ free'
  | [], free, _ => ⟨free, by rw [levelsAfterList?], Nat.le_refl free⟩
  | f :: fs, free, h => by
    rw [Form.levelsIn, Nat.max_le] at h
    obtain ⟨free, rfl⟩ := Nat.exists_eq_add_of_lt h.1
    obtain ⟨free₁, hafter, hle⟩ := levelsAfter?_of_le f (Nat.le_add_right f.levels free)
    have hfs : Form.levelsIn fs ≤ free₁ + 1 := by omega
    obtain ⟨free₂, hmore, hle'⟩ := levelsAfterList?_of_le fs hfs
    refine ⟨free₂, ?_, by omega⟩
    rw [levelsAfterList?, hafter, Option.bind_some, hmore]

theorem levelsAfterFields?_of_le : ∀ (fields : List (String × Form)) {free : Nat},
    Form.levelsOf fields ≤ free →
    ∃ free', levelsAfterFields? free fields = some free' ∧ free ≤ free'
  | [], free, _ => ⟨free, by rw [levelsAfterFields?], Nat.le_refl free⟩
  | (_, f) :: fields, free, h => by
    rw [Form.levelsOf, Nat.max_le] at h
    obtain ⟨free, rfl⟩ := Nat.exists_eq_add_of_lt h.1
    obtain ⟨free₁, hafter, hle⟩ := levelsAfter?_of_le f (Nat.le_add_right f.levels free)
    have hfields : Form.levelsOf fields ≤ free₁ + 1 := by omega
    obtain ⟨free₂, hmore, hle'⟩ := levelsAfterFields?_of_le fields hfields
    refine ⟨free₂, ?_, by omega⟩
    rw [levelsAfterFields?, hafter, Option.bind_some, hmore]

end

/-- A form whose parts all lie within the levels of the writer is written. -/
theorem isSome_pretty? {f : Form} (h : f.levels ≤ maxLevels) : (pretty? f).isSome := by
  obtain ⟨free, hafter, -⟩ := levelsAfter?_of_le f h
  rw [pretty?, hafter]
  rfl

end Ron

end Storyworld

namespace Storyworld

/-! ## Shallow types

Types whose values have no deep parts. All definitions but triggers are such, and so is whatever
a trigger is made of besides groups, schedules and branches. -/

namespace Formed

/-- No part of a value of the type lies deeper than level `n`. -/
class Shallow (α : Type) [Formed α] (n : outParam Nat) : Prop where
  levels_le (a : α) : (form a).levels ≤ n

variable {α : Type} [Formed α] {n m : Nat} {name : String} {fields : List (String × Form)} {a : α}

@[simp] theorem levels_form_le [Shallow α n] (h : n ≤ m) : (form a).levels ≤ m :=
  Nat.le_trans (Shallow.levels_le a) h

@[simp] theorem levels_form_lt [Shallow α n] (h : n < m) : (form a).levels < m :=
  Nat.lt_of_le_of_lt (Shallow.levels_le a) h

@[simp] theorem levels_form_eq_zero [Shallow α 0] : (form a).levels = 0 :=
  Nat.le_zero.mp (Shallow.levels_le a)

/-! ## Records and variants -/

theorem record_le (hform : form a = .record fields) (h : ∀ f ∈ fields, f.2.levels < n) :
    (form a).levels ≤ n := by
  rw [hform, Form.levels]
  exact Form.levelsOf_le.mpr h

theorem unit_le (hform : form a = .unit name) : (form a).levels ≤ n := by
  rw [hform, Form.levels]
  exact Nat.zero_le n

theorem wrapped_le {f : Form} (hform : form a = .wrapped name f) (h : f.levels < n) :
    (form a).levels ≤ n := by
  rw [hform, Form.levels]
  exact h

theorem fielded_le (hform : form a = .fielded name fields)
    (h : ∀ f ∈ fields, f.2.levels < n) : (form a).levels ≤ n := by
  rw [hform, Form.levels]
  exact Form.levelsOf_le.mpr h

theorem lt_record (key : String) {f : Form} (hform : form a = .record fields)
    (h : (key, f) ∈ fields) : f.levels < (form a).levels := by
  rw [hform, Form.levels]
  exact Form.levelsOf_le.mp (Nat.le_refl _) _ h

theorem lt_wrapped {f : Form} (hform : form a = .wrapped name f) : f.levels < (form a).levels := by
  rw [hform, Form.levels]
  exact Nat.lt_succ_self _

theorem lt_fielded {key : String} {f : Form} (hform : form a = .fielded name ((key, f) :: fields)) :
    f.levels < (form a).levels := by
  rw [hform, Form.levels]
  exact Form.levelsOf_le.mp (Nat.le_refl _) (key, f) List.mem_cons_self

/-! ## Scalars, lists and optional values -/

instance : Shallow String 0 where
  levels_le _ := Nat.le_refl 0

instance : Shallow Bool 0 where
  levels_le _ := Nat.le_refl 0

instance : Shallow UInt8 0 where
  levels_le _ := Nat.le_refl 0

instance : Shallow UInt32 0 where
  levels_le _ := Nat.le_refl 0

instance : Shallow Int64 0 where
  levels_le _ := Nat.le_refl 0

instance {of : Referent} : Shallow (Id of) 0 where
  levels_le _ := Nat.le_refl 0

theorem list_le {as : List α} (h : ∀ a ∈ as, (form a).levels ≤ n) :
    (form as).levels ≤ n + 1 := by
  change (Form.list (as.map form)).levels ≤ n + 1
  rw [Form.levels, Form.levelsIn_le, List.forall_mem_map]
  exact fun a ha => Nat.succ_le_succ (h a ha)

theorem lt_list {as : List α} (h : a ∈ as) : (form a).levels < (form as).levels := by
  change _ ≤ (Form.list (as.map form)).levels
  rw [Form.levels]
  exact Form.levelsIn_le.mp (Nat.le_refl _) _ (List.mem_map_of_mem h)

instance [Shallow α n] : Shallow (List α) (n + 1) where
  levels_le _ := list_le fun a _ => Shallow.levels_le a

instance [Shallow α n] : Shallow (Option α) (n + 1) where
  levels_le a? := by
    cases a? with
    | none => exact Nat.zero_le (n + 1)
    | some a => exact Nat.succ_le_succ (Shallow.levels_le a)

instance : Shallow Span 1 where
  levels_le _ := record_le rfl (by simp [Form.levels])

/-! ## Moods -/

instance : Shallow BuiltinMood 0 where
  levels_le m := by cases m <;> exact unit_le rfl

instance : Shallow Mood 1 where
  levels_le m := by cases m <;> exact wrapped_le rfl (by simp)

/-! ## Rooms -/

instance : Shallow RoomSet 2 where
  levels_le _ := record_le rfl (by simp)

instance : Shallow Exit 2 where
  levels_le _ := record_le rfl (by simp)

instance : Shallow Overlay.Condition 2 where
  levels_le c := by
    cases c with
    | flagSet _ | flagUnset _ | flagComplete _ | itemPresent _ | itemAbsent _ | playerHasItem _
    | playerMissingItem _ | npcPresent _ | npcAbsent _ => exact wrapped_le rfl (by simp)
    | npcInState _ _ | itemInRoom _ _ => exact fielded_le rfl (by simp)

instance : Shallow Overlay.Subject 1 where
  levels_le s := by cases s <;> exact wrapped_le rfl (by simp)

instance : Shallow Overlay.MoodLine 2 where
  levels_le _ := record_le rfl (by simp)

instance : Shallow Overlay.Kind 4 where
  levels_le k := by cases k <;> exact fielded_le rfl (by simp)

instance : Shallow Overlay 5 where
  levels_le _ := record_le rfl (by simp)

instance : Shallow Room 7 where
  levels_le _ := record_le rfl (by simp)

/-! ## Items -/

instance : Shallow Ability 2 where
  levels_le _ := record_le rfl (by simp)

instance : Shallow AbilityRequirement 1 where
  levels_le _ := record_le rfl (by simp)

instance : Shallow ContainerState 0 where
  levels_le s := by cases s <;> exact unit_le rfl

instance : Shallow Item.Location 1 where
  levels_le l := by
    cases l with
    | inventory => exact unit_le rfl
    | room _ | chest _ | npc _ | nowhere _ => exact wrapped_le rfl (by simp)

instance : Shallow WhenConsumed 1 where
  levels_le w := by
    cases w with
    | despawn => exact unit_le rfl
    | replaceInventory _ | replaceCurrentRoom _ => exact wrapped_le rfl (by simp)

instance : Shallow Consumable 4 where
  levels_le _ := record_le rfl (by simp)

instance : Shallow Item 6 where
  levels_le _ := record_le rfl (by simp)

/-! ## Npcs -/

instance : Shallow Npc.Location 1 where
  levels_le l := by cases l <;> exact wrapped_le rfl (by simp)

instance : Shallow MovementKind 0 where
  levels_le k := by cases k <;> exact unit_le rfl

instance : Shallow Movement 2 where
  levels_le _ := record_le rfl (by simp)

instance : Shallow Dialogue 2 where
  levels_le _ := record_le rfl (by simp)

instance : Shallow Npc 4 where
  levels_le _ := record_le rfl (by simp)

/-! ## Spinners and goals -/

instance : Shallow Wedge 2 where
  levels_le _ := record_le rfl (by simp)

instance : Shallow Spinner 4 where
  levels_le _ := record_le rfl (by simp)

instance : Shallow GoalGroup 0 where
  levels_le g := by cases g <;> exact unit_le rfl

instance : Shallow Goal.Condition 1 where
  levels_le c := by cases c <;> exact wrapped_le rfl (by simp)

instance : Shallow Goal 3 where
  levels_le _ := record_le rfl (by simp)

/-! ## Parts of triggers -/

instance : Shallow IngestMode 0 where
  levels_le m := by cases m <;> exact unit_le rfl

instance : Shallow Event 2 where
  levels_le e := by
    cases e with
    | always => exact unit_le rfl
    | enterRoom _ | leaveRoom _ | takeItem _ | dropItem _ | openItem _ | unlockItem _
    | lookAtItem _ | talkToNpc _ => exact wrapped_le rfl (by simp)
    | useItem _ _ | useItemOnItem _ _ _ | actOnItem _ _ | giveToNpc _ _ | takeFromNpc _ _
    | insertItemInto _ _ | ingest _ _ => exact fielded_le rfl (by simp)

instance : Shallow Query 3 where
  levels_le q := by
    cases q with
    | hasFlag _ | missingFlag _ | hasItem _ | missingItem _ | hasVisited _ | flagInProgress _
    | flagComplete _ | withNpc _ | playerInRoom _ | chance _ | inRooms _ =>
        exact wrapped_le rfl (by simp)
    | npcHasItem _ _ | npcInState _ _ | containerHasItem _ _ | ambient _ _ =>
        exact fielded_le rfl (by simp)

instance : Shallow ContainerPatch 1 where
  levels_le p := by
    cases p with
    | set _ => exact wrapped_le rfl (by simp)
    | remove => exact unit_le rfl

instance : Shallow ItemPatch 4 where
  levels_le _ := record_le rfl (by simp)

instance : Shallow Effect 5 where
  levels_le e := by
    cases e with
    | showText _ | addFlag _ | removeFlag _ | resetFlag _ | advanceFlag _ | spawnItemInInventory _
    | spawnItemInCurrentRoom _ | despawnNpc _ | despawnItem _ | lockItem _ | unlockItem _
    | pushPlayerTo _ | npcRandomDialogue _ | denyRead _ | restrictItem _ | spinnerMessage _ =>
        exact wrapped_le rfl (by simp)
    | modifyItem _ _ | addWedge _ _ _ | addSeqFlag _ _ | replaceItem _ _ | replaceDropItem _ _
    | spawnItemIntoRoom _ _ | spawnItemIntoContainer _ _ | spawnNpcIntoRoom _ _ | awardPoints _ _
    | lockExit _ _ | unlockExit _ _ | revealExit _ _ _ | setItemDescription _ _ | npcSays _ _
    | npcRefuseItem _ _ | setNpcActive _ _ | setNpcState _ _ | giveItemToPlayer _ _
    | setBarredMessage _ _ _ | setContainerState _ _ => exact fielded_le rfl (by simp)

instance : Shallow Anchor 0 where
  levels_le a := by cases a <;> exact unit_le rfl

instance : Shallow RetryPolicy 1 where
  levels_le r := by
    cases r with
    | cancel | retryNextTurn => exact unit_le rfl
    | retryAfter _ => exact wrapped_le rfl (by simp)

end Formed

end Storyworld
