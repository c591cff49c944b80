import Storyworld.Event.Form
import Storyworld.Condition.Form
import Storyworld.Goal.Form
import Storyworld.Item.Form
import Storyworld.Npc.Form
import Storyworld.Proofs.Document.Spans
import Storyworld.Proofs.Form.ReadsBack
import Storyworld.Room.Form
import Storyworld.Spinner.Form

namespace Storyworld

open Formed

/-! The parts of definitions are read back, and so are the definitions other than triggers. Where a
part tells its place, the place has to fit its fields. -/

/-! ## Moods -/

instance : Lossless BuiltinMood where
  readsBack m := by cases m <;> exact .unit rfl rfl

instance : Lossless Mood where
  readsBack m := by
    cases m with
    | builtin mood => exact .wrapped (readsBack mood) rfl (fun _ => rfl) rfl
    | custom name => exact .wrapped (readsBack name) rfl (fun _ => rfl) rfl

/-! ## Rooms -/

theorem RoomSet.readsBack {s : RoomSet} (h : s.span.Fits) : ReadsBack s :=
  .record rfl (fun _ => rfl) rfl (by decide) (by simp [h.readsBack])

theorem Exit.readsBack {e : Exit} (h : e.span.Fits) : ReadsBack e :=
  .record rfl (fun _ => rfl) rfl (by decide) (by simp [h.readsBack])

instance : Lossless Overlay.Condition where
  readsBack c := by
    cases c with
    | flagSet _ | flagUnset _ | flagComplete _ | itemPresent _ | itemAbsent _ | playerHasItem _
    | playerMissingItem _ | npcPresent _ | npcAbsent _ =>
        exact .wrapped (readsBack _) rfl (fun _ => rfl) rfl
    | npcInState _ _ | itemInRoom _ _ =>
        exact .fielded rfl (fun _ => rfl) rfl (by decide) (by simp)

instance : Lossless Overlay.Subject where
  readsBack s := by cases s <;> exact .wrapped (readsBack _) rfl (fun _ => rfl) rfl

instance : Lossless Overlay.MoodLine where
  readsBack _ := .record rfl (fun _ => rfl) rfl (by decide) (by simp)

instance : Lossless Overlay.Kind where
  readsBack k := by cases k <;> exact .fielded rfl (fun _ => rfl) rfl (by decide) (by simp)

theorem Overlay.readsBack {o : Overlay} (h : o.span.Fits) : ReadsBack o :=
  .record rfl (fun _ => rfl) rfl (by decide) (by simp [h.readsBack])

theorem Room.readsBack {r : Room} (h : ∀ s ∈ r.spans, s.Fits) : ReadsBack r := by
  have hspan : ReadsBack r.span := (h r.span (.head _)).readsBack
  have hexits : ReadsBack r.exits := .list fun e he =>
    Exit.readsBack (h e.span (.tail _ (List.mem_append_left _ (List.mem_map_of_mem he))))
  have hoverlays : ReadsBack r.overlays := .list fun o ho =>
    Overlay.readsBack (h o.span (.tail _ (List.mem_append_right _ (List.mem_map_of_mem ho))))
  exact .record rfl (fun _ => rfl) rfl (by decide) (by simp [hspan, hexits, hoverlays])

/-! ## Items -/

instance : Lossless Ability where
  readsBack _ := .record rfl (fun _ => rfl) rfl (by decide) (by simp)

instance : Lossless AbilityRequirement where
  readsBack _ := .record rfl (fun _ => rfl) rfl (by decide) (by simp)

instance : Lossless ContainerState where
  readsBack s := by cases s <;> exact .unit rfl rfl

instance : Lossless Item.Location where
  readsBack l := by
    cases l with
    | inventory => exact .unit rfl rfl
    | room _ | chest _ | npc _ | nowhere _ => exact .wrapped (readsBack _) rfl (fun _ => rfl) rfl

instance : Lossless WhenConsumed where
  readsBack w := by
    cases w with
    | despawn => exact .unit rfl rfl
    | replaceInventory _ | replaceCurrentRoom _ =>
        exact .wrapped (readsBack _) rfl (fun _ => rfl) rfl

instance : Lossless Consumable where
  readsBack _ := .record rfl (fun _ => rfl) rfl (by decide) (by simp)

theorem Item.readsBack {i : Item} (h : i.span.Fits) : ReadsBack i :=
  .record rfl (fun _ => rfl) rfl (by decide) (by simp [h.readsBack])

/-! ## Npcs -/

instance : Lossless Npc.Location where
  readsBack l := by cases l <;> exact .wrapped (readsBack _) rfl (fun _ => rfl) rfl

instance : Lossless MovementKind where
  readsBack k := by cases k <;> exact .unit rfl rfl

instance : Lossless Movement where
  readsBack _ := .record rfl (fun _ => rfl) rfl (by decide) (by simp)

theorem Dialogue.readsBack {d : Dialogue} (h : d.span.Fits) : ReadsBack d :=
  .record rfl (fun _ => rfl) rfl (by decide) (by simp [h.readsBack])

theorem Npc.readsBack {n : Npc} (h : ∀ s ∈ n.spans, s.Fits) : ReadsBack n := by
  have hspan : ReadsBack n.span := (h n.span (.head _)).readsBack
  have hdialogue : ReadsBack n.dialogue := .list fun d hd =>
    Dialogue.readsBack (h d.span (.tail _ (List.mem_map_of_mem hd)))
  exact .record rfl (fun _ => rfl) rfl (by decide) (by simp [hspan, hdialogue])

/-! ## Spinners and goals -/

theorem Wedge.readsBack {w : Wedge} (h : w.span.Fits) : ReadsBack w :=
  .record rfl (fun _ => rfl) rfl (by decide) (by simp [h.readsBack])

theorem Spinner.readsBack {s : Spinner} (h : ∀ p ∈ s.spans, p.Fits) : ReadsBack s := by
  have hspan : ReadsBack s.span := (h s.span (.head _)).readsBack
  have hwedges : ReadsBack s.wedges := .list fun w hw =>
    Wedge.readsBack (h w.span (.tail _ (List.mem_map_of_mem hw)))
  exact .record rfl (fun _ => rfl) rfl (by decide) (by simp [hspan, hwedges])

instance : Lossless GoalGroup where
  readsBack g := by cases g <;> exact .unit rfl rfl

instance : Lossless Goal.Condition where
  readsBack c := by cases c <;> exact .wrapped (readsBack _) rfl (fun _ => rfl) rfl

theorem Goal.readsBack {g : Goal} (h : g.span.Fits) : ReadsBack g :=
  .record rfl (fun _ => rfl) rfl (by decide) (by simp [h.readsBack])

/-! ## Events -/

instance : Lossless IngestMode where
  readsBack m := by cases m <;> exact .unit rfl rfl

instance : Lossless Event where
  readsBack e := by
    cases e with
    | always => exact .unit rfl rfl
    | enterRoom _ | leaveRoom _ | takeItem _ | dropItem _ | openItem _ | unlockItem _
    | lookAtItem _ | talkToNpc _ => exact .wrapped (readsBack _) rfl (fun _ => rfl) rfl
    | useItem _ _ | useItemOnItem _ _ _ | actOnItem _ _ | giveToNpc _ _ | takeFromNpc _ _
    | insertItemInto _ _ | ingest _ _ =>
        exact .fielded rfl (fun _ => rfl) rfl (by decide) (by simp)

/-! ## Conditions -/

instance : Lossless Query where
  readsBack q := by
    cases q with
    | hasFlag _ | missingFlag _ | hasItem _ | missingItem _ | hasVisited _ | flagInProgress _
    | flagComplete _ | withNpc _ | playerInRoom _ | chance _ | inRooms _ =>
        exact .wrapped (readsBack _) rfl (fun _ => rfl) rfl
    | npcHasItem _ _ | npcInState _ _ | containerHasItem _ _ | ambient _ _ =>
        exact .fielded rfl (fun _ => rfl) rfl (by decide) (by simp)

namespace Condition

/-- A query is never taken for a group. -/
theorem ofJson?_single (q : Query) :
    ofJson? (.ofForm (form q)) = (read? (.ofForm (form q))).map .single := by
  cases q <;> rfl

mutual

theorem ofJson?_toForm : ∀ c : Condition, ofJson? (.ofForm c.toForm) = some c
  | .single q => by
    rw [toForm, ofJson?_single, (readsBack q).read, Option.map_some]
  | .any members => by
    have hmembers := ofJsons?_toForms members
    rw [toForm, Json.ofForm, Json.ofForm, ofJson?, if_pos rfl, hmembers, Option.map_some]
  | .all members => by
    have hmembers := ofJsons?_toForms members
    rw [toForm, Json.ofForm, Json.ofForm, ofJson?, if_neg (by decide), if_pos rfl, hmembers,
      Option.map_some]

theorem ofJsons?_toForms : ∀ cs : List Condition, ofJsons? (Json.ofForms (toForms cs)) = some cs
  | [] => rfl
  | c :: cs => by
    rw [toForms, Json.ofForms, ofJsons?, ofJson?_toForm c, ofJsons?_toForms cs]

end

instance : Lossless Condition where
  readsBack c := by
    refine ⟨c.ofJson?_toForm, ?_⟩
    change Json.ofForm c.toForm ≠ .null
    cases c with
    | single q =>
        rw [toForm]
        exact (readsBack q).ne_null
    | any _ | all _ =>
        rw [toForm, Json.ofForm]
        nofun

end Condition

end Storyworld
