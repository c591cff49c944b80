import Storyworld.Action.Form
import Storyworld.Document.Form
import Storyworld.Proofs.Form.Definitions

namespace Storyworld

open Formed

/-! Effects are read back, and so are the statements of triggers and schedules, by recursion on how
they lie inside one another. -/

/-! ## Effects -/

instance : Lossless ContainerPatch where
  readsBack p := by
    cases p with
    | set state => exact .wrapped (readsBack state) rfl (fun _ => rfl) rfl
    | remove => exact .unit rfl rfl

instance : Lossless ItemPatch where
  readsBack _ := .record rfl (fun _ => rfl) rfl (by decide) (by simp)

instance : Lossless Effect where
  readsBack e := by
    cases e with
    | showText _ | addFlag _ | removeFlag _ | resetFlag _ | advanceFlag _ | spawnItemInInventory _
    | spawnItemInCurrentRoom _ | despawnNpc _ | despawnItem _ | lockItem _ | unlockItem _
    | pushPlayerTo _ | npcRandomDialogue _ | denyRead _ | restrictItem _ | spinnerMessage _ =>
        exact .wrapped (readsBack _) rfl (fun _ => rfl) rfl
    | modifyItem _ _ | addWedge _ _ _ | addSeqFlag _ _ | replaceItem _ _ | replaceDropItem _ _
    | spawnItemIntoRoom _ _ | spawnItemIntoContainer _ _ | spawnNpcIntoRoom _ _ | awardPoints _ _
    | lockExit _ _ | unlockExit _ _ | revealExit _ _ _ | setItemDescription _ _ | npcSays _ _
    | npcRefuseItem _ _ | setNpcActive _ _ | setNpcState _ _ | giveItemToPlayer _ _
    | setBarredMessage _ _ _ | setContainerState _ _ =>
        exact .fielded rfl (fun _ => rfl) rfl (by decide) (by simp)

/-! ## Schedules -/

instance : Lossless Anchor where
  readsBack a := by cases a <;> exact .unit rfl rfl

instance : Lossless RetryPolicy where
  readsBack r := by
    cases r with
    | cancel | retryNextTurn => exact .unit rfl rfl
    | retryAfter turns => exact .wrapped (readsBack turns) rfl (fun _ => rfl) rfl

/-- No effect is taken for a schedule. -/
theorem scheduleColumns?_effect (e : Effect) : scheduleColumns? (.ofForm (form e)) = none := by
  cases e <;> rfl

/-- A schedule is told apart from its body, whatever the form of that. -/
theorem scheduleColumns?_form (anchor : Anchor) (turns : UInt32) (guard : Option Guard)
    (note : Option String) (body : Form) :
    scheduleColumns? (.ofForm (scheduleForm anchor turns guard note body)) =
      some (.schedule anchor turns guard note, .ofForm body) := by
  cases guard with
  | none =>
      rw [scheduleForm, Json.ofForm, scheduleColumns?, Json.variant?]
      simp only [Option.bind_eq_bind, Option.bind_some]
      refine (Json.bind_columns? (by rfl) (by decide)).trans ?_
      simp
  | some guard =>
      rw [scheduleForm, Json.ofForm, scheduleColumns?, Json.variant?]
      simp only [Option.bind_eq_bind, Option.bind_some]
      refine (Json.bind_columns? (by rfl) (by decide)).trans ?_
      simp

/-! ## Statements -/

theorem branchColumns?_form (condition : Condition) (deeds : Form) {span : Span} (h : span.Fits) :
    branchColumns? (.ofForm (.record [("condition", form condition), ("actions", deeds),
      ("span", form span)])) =
      some (fun deeds => .branch condition deeds span, .ofForm deeds) := by
  rw [branchColumns?]
  refine (Json.bind_columns? (by rfl) (by decide)).trans ?_
  simp [h.readsBack]

theorem deedColumns?_form (action : Form) {span : Span} (h : span.Fits) :
    deedColumns? (.ofForm (.record [("action", action), ("span", form span)])) =
      some (.ofForm action, span) := by
  rw [deedColumns?]
  refine (Json.bind_columns? (by rfl) (by decide)).trans ?_
  simp [h.readsBack]

mutual

theorem Action.ofJson?_toForm : ∀ a : Action, (∀ s ∈ a.spans, s.Fits) →
    Action.ofJson? (.ofForm a.toForm) = some a
  | .effect e, _ => by
    have hnone := scheduleColumns?_effect e
    have hread := (readsBack e).read
    rw [Action.toForm, Action.ofJson?]
    split <;> simp_all
  | .schedule anchor turns guard note body, h => by
    have hbody := Statement.ofJsons?_toForms body (by simpa only [Action.spans] using h)
    have hcolumns := scheduleColumns?_form anchor turns guard note (.list (Statement.toForms body))
    rw [Json.ofForm] at hcolumns
    rw [Action.toForm, Action.ofJson?]
    split <;> simp_all

theorem Deed.ofJson?_toForm : ∀ d : Deed, (∀ s ∈ d.spans, s.Fits) →
    Deed.ofJson? (.ofForm d.toForm) = some d
  | .mk action span, h => by
    rw [Deed.spans, List.forall_mem_cons] at h
    have haction := Action.ofJson?_toForm action h.2
    have hcolumns := deedColumns?_form action.toForm h.1
    rw [Deed.toForm, Deed.ofJson?]
    split <;> simp_all

theorem Deed.ofJsons?_toForms : ∀ ds : List Deed, (∀ s ∈ Deed.spansIn ds, s.Fits) →
    Deed.ofJsons? (Json.ofForms (Deed.toForms ds)) = some ds
  | [], _ => by rw [Deed.toForms, Json.ofForms, Deed.ofJsons?]
  | d :: ds, h => by
    rw [Deed.spansIn, List.forall_mem_append] at h
    rw [Deed.toForms, Json.ofForms, Deed.ofJsons?, Deed.ofJson?_toForm d h.1,
      Deed.ofJsons?_toForms ds h.2]

theorem Statement.ofJson?_toForm : ∀ s : Statement, (∀ p ∈ s.spans, p.Fits) →
    Statement.ofJson? (.ofForm s.toForm) = some s
  | .perform deed, h => by
    have hdeed := Deed.ofJson?_toForm deed (by simpa only [Statement.spans] using h)
    rw [Statement.toForm, Json.ofForm, Statement.ofJson?]
    split <;> simp_all [Json.variant?]
  | .branch condition deeds span, h => by
    rw [Statement.spans, List.forall_mem_cons] at h
    have hdeeds := Deed.ofJsons?_toForms deeds h.2
    have hcolumns := branchColumns?_form condition (.list (Deed.toForms deeds)) h.1
    rw [Json.ofForm.eq_def (.list _)] at hcolumns
    rw [Statement.toForm, Json.ofForm, Statement.ofJson?]
    split <;> simp_all [Json.variant?]
    split <;> simp_all

theorem Statement.ofJsons?_toForms : ∀ ss : List Statement, (∀ p ∈ Statement.spansIn ss, p.Fits) →
    Statement.ofJsons? (Json.ofForms (Statement.toForms ss)) = some ss
  | [], _ => by rw [Statement.toForms, Json.ofForms, Statement.ofJsons?]
  | s :: ss, h => by
    rw [Statement.spansIn, List.forall_mem_append] at h
    rw [Statement.toForms, Json.ofForms, Statement.ofJsons?, Statement.ofJson?_toForm s h.1,
      Statement.ofJsons?_toForms ss h.2]

end

end Storyworld

namespace Storyworld

open Formed

/-! ## Documents

A document is read back from its JSON value, so that no two documents share one. -/

/-! ## Triggers -/

theorem Statement.readsBack {s : Statement} (h : ∀ p ∈ s.spans, p.Fits) : ReadsBack s := by
  refine ⟨s.ofJson?_toForm h, ?_⟩
  change Json.ofForm s.toForm ≠ .null
  cases s with
  | perform _ | branch _ _ _ =>
      rw [Statement.toForm, Json.ofForm]
      nofun

theorem Trigger.readsBack {t : Trigger} (h : ∀ s ∈ t.spans, s.Fits) : ReadsBack t := by
  rw [Trigger.spans, List.forall_mem_cons, Statement.forall_mem_spansIn] at h
  have hspan : ReadsBack t.span := h.1.readsBack
  have hblock : ReadsBack t.block := .list fun s hs => Statement.readsBack (h.2 s hs)
  exact .record rfl (fun _ => rfl) rfl (by decide) (by simp [hspan, hblock])

/-! ## Documents -/

theorem Definition.readsBack {d : Definition} (h : ∀ s ∈ d.spans, s.Fits) : ReadsBack d := by
  cases d with
  | roomSet set =>
      exact .wrapped (RoomSet.readsBack (h set.span (.head _))) rfl (fun _ => rfl) rfl
  | room room => exact .wrapped (Room.readsBack h) rfl (fun _ => rfl) rfl
  | item item => exact .wrapped (Item.readsBack (h item.span (.head _))) rfl (fun _ => rfl) rfl
  | npc npc => exact .wrapped (Npc.readsBack h) rfl (fun _ => rfl) rfl
  | trigger trigger => exact .wrapped (Trigger.readsBack h) rfl (fun _ => rfl) rfl
  | spinner spinner => exact .wrapped (Spinner.readsBack h) rfl (fun _ => rfl) rfl
  | goal goal => exact .wrapped (Goal.readsBack (h goal.span (.head _))) rfl (fun _ => rfl) rfl

namespace Document

theorem readsBack {d : Document} (h : ∀ s ∈ d.spans, s.Fits) : ReadsBack d := by
  rw [spans, List.forall_mem_append] at h
  have hcomments : ReadsBack d.comments := .list fun s hs => (h.1 s hs).readsBack
  have hdefinitions : ReadsBack d.definitions := .list fun definition hd =>
    Definition.readsBack fun s hs => h.2 s (List.mem_flatMap.mpr ⟨definition, hd, hs⟩)
  exact .record rfl (fun _ => rfl) rfl (by decide) (by simp [hdefinitions, hcomments])

/-- Nothing of a document is lost in its JSON value: the document is read back from it, and no other
document has the same one. -/
theorem ofJson?_toJson {d : Document} (h : ∀ s ∈ d.spans, s.Fits) :
    ofJson? d.toJson = some d ∧
      ∀ e : Document, (∀ s ∈ e.spans, s.Fits) → e.toJson = d.toJson → e = d := by
  refine ⟨(readsBack h).read, fun e he hsame => ?_⟩
  have hd : read? e.toJson = some d := hsame ▸ (readsBack h).read
  exact Option.some.inj ((readsBack he).read.symm.trans hd)

/-- A document whose names are those of variants, with a guarded schedule inside a branch. -/
def ofVariantNames : Document where
  definitions := [.trigger {
    name := "Schedule"
    onlyOnce := false
    notes := ["null"]
    event := .always
    block := [.branch (.any [.single (.hasFlag ⟨"All"⟩), .all []])
      [.mk (.schedule .fromNow 4294967295 (some ⟨.single (.ambient ⟨"None"⟩ none), none⟩) (some "")
        [.perform (.mk (.effect (.npcSays ⟨"If"⟩ "Do")) .origin)]) .origin]
      .origin]
    span := .origin }]
  comments := [⟨UInt64.size - 1, 0, UInt32.size - 1, 1⟩]

theorem ofJson?_toJson_ofVariantNames :
    (∀ s ∈ ofVariantNames.spans, s.Fits) ∧
    ofJson? ofVariantNames.toJson = some ofVariantNames := by
  have hspans : ofVariantNames.spans =
      [⟨UInt64.size - 1, 0, UInt32.size - 1, 1⟩, .origin, .origin, .origin, .origin] := rfl
  have hfits : ∀ s ∈ ofVariantNames.spans, s.Fits := by
    have horigin : Span.origin.Fits := ⟨by decide, by decide, by decide, by decide⟩
    rw [hspans]
    simp only [List.forall_mem_cons, List.not_mem_nil, false_implies, implies_true, and_true]
    exact ⟨⟨by decide, by decide, by decide, by decide⟩, horigin, horigin, horigin, horigin⟩
  exact ⟨hfits, (ofJson?_toJson hfits).1⟩

end Document

end Storyworld
