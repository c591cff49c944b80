import Storyworld.Document.Form
import Storyworld.Outcome
import Storyworld.Proofs.Document.Source
import Storyworld.Proofs.Form.Levels
import Storyworld.Proofs.Shape.WellShaped

namespace Storyworld

open Formed

/-! How deep documents are. Only groups, schedules and branches lead deeper than a few levels; what
each of them adds is its weight, and the weight of a document tells its depth up to four levels. -/

/-! ## Weights -/

namespace Condition

mutual

/-- The levels that groups add. -/
def weight : Condition → Nat
  | single _ => 0
  | any members | all members => weightIn members

/-- The levels that a group adds for its members. -/
def weightIn : List Condition → Nat
  | [] => 0
  | c :: cs => max (c.weight + 2) (weightIn cs)

end

theorem weightIn_le {n : Nat} {cs : List Condition} :
    weightIn cs ≤ n ↔ ∀ c ∈ cs, c.weight + 2 ≤ n := by
  induction cs with
  | nil => simp [weightIn]
  | cons c cs ih => rw [weightIn, Nat.max_le, ih, List.forall_mem_cons]

end Condition

mutual

/-- The levels that schedules, their guards and the branches in them add. -/
def Action.weight : Action → Nat
  | .effect _ => 0
  | .schedule _ _ none _ body => Statement.weightIn 5 body
  | .schedule _ _ (some guard) _ body => max guard.condition.weight (Statement.weightIn 5 body)

def Deed.weight : Deed → Nat
  | .mk action _ => action.weight

/-- The levels that a branch adds for its deeds. -/
def Deed.weightIn : List Deed → Nat
  | [] => 0
  | d :: ds => max (d.weight + 2) (Deed.weightIn ds)

def Statement.weight : Statement → Nat
  | .perform deed => deed.weight
  | .branch condition deeds _ => max condition.weight (Deed.weightIn deeds)

/-- The levels that something adds for the statements in it, with `own` levels of its own. -/
def Statement.weightIn (own : Nat) : List Statement → Nat
  | [] => 0
  | s :: ss => max (s.weight + own) (Statement.weightIn own ss)

end

theorem Deed.weightIn_le {n : Nat} {ds : List Deed} :
    Deed.weightIn ds ≤ n ↔ ∀ d ∈ ds, d.weight + 2 ≤ n := by
  induction ds with
  | nil => simp [Deed.weightIn]
  | cons d ds ih => rw [Deed.weightIn, Nat.max_le, ih, List.forall_mem_cons]

theorem Statement.weightIn_le {n own : Nat} {ss : List Statement} :
    Statement.weightIn own ss ≤ n ↔ ∀ s ∈ ss, s.weight + own ≤ n := by
  induction ss with
  | nil => simp [Statement.weightIn]
  | cons s ss ih => rw [Statement.weightIn, Nat.max_le, ih, List.forall_mem_cons]

/-- The levels that the statements of triggers add; nothing else weighs anything. -/
def Document.weight (d : Document) : Nat :=
  Statement.weightIn 0 (d.triggers.flatMap (·.block))

/-! ## Levels -/

theorem Query.one_le_levels (q : Query) : 1 ≤ (form q).levels := by
  cases q <;>
    exact Nat.le_trans (Nat.le_add_left 1 _) (by first | exact lt_wrapped rfl | exact lt_fielded rfl)

theorem Effect.one_le_levels (e : Effect) : 1 ≤ (form e).levels := by
  cases e <;>
    exact Nat.le_trans (Nat.le_add_left 1 _) (by first | exact lt_wrapped rfl | exact lt_fielded rfl)

namespace Condition

mutual

/-- The weight of a condition tells its depth up to two levels. -/
theorem levels_bounds : ∀ c : Condition,
    c.weight + 1 ≤ c.toForm.levels ∧ c.toForm.levels ≤ c.weight + 3
  | .single q => by
    rw [weight, toForm]
    exact ⟨q.one_le_levels, levels_form_le (by decide)⟩
  | .any members | .all members => by
    have hmembers := levelsIn_bounds members
    rw [weight, toForm, Form.levels, Form.levels]
    omega

theorem levelsIn_bounds : ∀ cs : List Condition,
    weightIn cs ≤ Form.levelsIn (toForms cs) ∧ Form.levelsIn (toForms cs) ≤ weightIn cs + 2
  | [] => by
    rw [weightIn, toForms, Form.levelsIn]
    omega
  | c :: cs => by
    have hc := levels_bounds c
    have hcs := levelsIn_bounds cs
    rw [weightIn, toForms, Form.levelsIn]
    omega

end

end Condition

mutual

/-- The weight of an action tells its depth up to four levels. -/
theorem Action.levels_bounds : ∀ a : Action,
    a.weight + 1 ≤ a.toForm.levels ∧ a.toForm.levels ≤ a.weight + 5
  | .effect e => by
    rw [Action.weight, Action.toForm]
    exact ⟨e.one_le_levels, levels_form_le (by decide)⟩
  | .schedule anchor turns none note body => by
    have hbody := Statement.levelsIn_bounds (by decide : 5 ≤ 8) body
    have hnote : (form note).levels ≤ 1 := levels_form_le (by decide)
    simp only [Action.weight, Action.toForm, scheduleForm, Form.levels, Form.levelsOf,
      levels_form_eq_zero]
    omega
  | .schedule anchor turns (some guard) note body => by
    have hbody := Statement.levelsIn_bounds (by decide : 5 ≤ 8) body
    have hguard : guard.condition.weight + 1 ≤ (form guard.condition).levels ∧
        (form guard.condition).levels ≤ guard.condition.weight + 3 := guard.condition.levels_bounds
    have hretry : (form guard.retry).levels ≤ 2 := levels_form_le (by decide)
    have hnote : (form note).levels ≤ 1 := levels_form_le (by decide)
    simp only [Action.weight, Action.toForm, scheduleForm, Form.levels, Form.levelsOf,
      levels_form_eq_zero]
    omega

theorem Deed.levels_bounds : ∀ d : Deed,
    d.weight + 2 ≤ d.toForm.levels ∧ d.toForm.levels ≤ d.weight + 6
  | .mk action span => by
    have haction := action.levels_bounds
    have hspan : (form span).levels ≤ 1 := levels_form_le (by decide)
    simp only [Deed.weight, Deed.toForm, Form.levels, Form.levelsOf]
    omega

theorem Deed.levelsIn_bounds : ∀ ds : List Deed,
    Deed.weightIn ds ≤ Form.levelsIn (Deed.toForms ds) - 1 ∧
      Form.levelsIn (Deed.toForms ds) ≤ Deed.weightIn ds + 5
  | [] => by simp [Deed.weightIn, Deed.toForms, Form.levelsIn]
  | d :: ds => by
    have hd := d.levels_bounds
    have hds := Deed.levelsIn_bounds ds
    rw [Deed.weightIn, Deed.toForms, Form.levelsIn]
    omega

theorem Statement.levels_bounds : ∀ s : Statement,
    s.weight + 3 ≤ s.toForm.levels ∧ s.toForm.levels ≤ s.weight + 7
  | .perform deed => by
    have hdeed := deed.levels_bounds
    rw [Statement.weight, Statement.toForm, Form.levels]
    omega
  | .branch condition deeds span => by
    have hcondition : condition.weight + 1 ≤ (form condition).levels ∧
        (form condition).levels ≤ condition.weight + 3 := condition.levels_bounds
    have hdeeds := Deed.levelsIn_bounds deeds
    have hspan : (form span).levels ≤ 1 := levels_form_le (by decide)
    simp only [Statement.weight, Statement.toForm, Form.levels, Form.levelsOf]
    omega

theorem Statement.levelsIn_bounds {own : Nat} (hown : own ≤ 8) : ∀ ss : List Statement,
    (Statement.weightIn own ss ≠ 0 →
      Statement.weightIn own ss + 4 ≤ Form.levelsIn (Statement.toForms ss) + own) ∧
      Form.levelsIn (Statement.toForms ss) + own ≤ Statement.weightIn own ss + 8
  | [] => by
    rw [Statement.weightIn, Statement.toForms, Form.levelsIn]
    omega
  | s :: ss => by
    have hs := s.levels_bounds
    have hss := Statement.levelsIn_bounds hown ss
    rw [Statement.weightIn, Statement.toForms, Form.levelsIn]
    omega

end

namespace Document

/-- What lies in the block of a trigger adds to the weight of the document. -/
theorem weight_le {n : Nat} {d : Document} :
    d.weight ≤ n ↔ ∀ t, .trigger t ∈ d.definitions → ∀ s ∈ t.block, s.weight ≤ n := by
  have htriggers {t : Trigger} : t ∈ d.triggers ↔ .trigger t ∈ d.definitions := by
    rw [triggers, List.mem_filterMap]
    constructor
    · rintro ⟨_ | _ | _ | _ | _ | _ | _, hmem, hsome⟩ <;> simp_all
    · exact fun h => ⟨.trigger t, h, rfl⟩
  rw [weight, Statement.weightIn_le]
  simp only [List.mem_flatMap, htriggers, Nat.add_zero, forall_exists_index, and_imp]
  exact ⟨fun h t ht s hs => h s t ht hs, fun h s t ht hs => h t ht s hs⟩

theorem levels_definition_le {d : Document} {definition : Definition}
    (h : definition ∈ d.definitions) : (form definition).levels ≤ d.weight + 10 := by
  cases definition with
  | roomSet _ | room _ | item _ | npc _ | spinner _ | goal _ =>
      refine wrapped_le rfl (Nat.succ_le_succ (levels_form_le ?_))
      omega
  | trigger t =>
      have hblock : (form t.block).levels ≤ d.weight + 8 := list_le fun s hs => by
        have hs' := weight_le.mp (Nat.le_refl d.weight) t h s hs
        exact s.levels_bounds.2.trans (Nat.add_le_add_right hs' 7)
      refine wrapped_le rfl (Nat.succ_le_succ (record_le rfl ?_))
      simp only [List.forall_mem_cons]
      refine ⟨?_, ?_, ?_, ?_, Nat.succ_le_succ hblock, ?_, by simp⟩ <;>
        exact Nat.succ_le_succ (levels_form_le (by omega))

/-- The weight of a document tells its depth up to four levels. -/
theorem levels_bounds (d : Document) :
    d.weight ≤ (form d).levels - 8 ∧ (form d).levels ≤ d.weight + 12 := by
  constructor
  · refine weight_le.mpr fun t ht s hs => ?_
    have hstatement : s.weight + 3 ≤ (form s).levels := s.levels_bounds.1
    have hblock : (form s).levels + 1 ≤ (form t.block).levels := lt_list hs
    have htrigger : (form t.block).levels + 1 ≤ (form t).levels :=
      lt_record "block" rfl (by simp)
    have hdefinition : (form t).levels + 1 ≤ (form (Definition.trigger t)).levels :=
      lt_wrapped rfl
    have hdefinitions : (form (Definition.trigger t)).levels + 1 ≤ (form d.definitions).levels :=
      lt_list ht
    have hdocument : (form d.definitions).levels + 1 ≤ (form d).levels :=
      lt_record "definitions" rfl (by simp)
    omega
  · refine record_le rfl ?_
    simp only [List.forall_mem_cons]
    refine ⟨Nat.succ_le_succ (list_le fun definition h => levels_definition_le h), ?_, by simp⟩
    exact Nat.succ_le_succ (levels_form_le (by omega))

end Document

/-! ## Weights of what is well shaped -/

theorem Condition.weight_le_of_wellShaped {levels : Nat} {c : Condition} (h : c.WellShaped levels) :
    c.weight ≤ 2 * levels := by
  induction levels generalizing c with
  | zero =>
      cases c with
      | single _ => rw [weight]
      | any _ | all _ => exact h.elim
  | succ levels ih =>
      cases c with
      | single _ =>
          rw [weight]
          exact Nat.zero_le _
      | any members | all members =>
          rw [weight, weightIn_le]
          exact fun m hm => Nat.add_le_add_right (ih (h.2 m hm)) 2

theorem Statement.weight_le_of_madeOf {n : Nat} {C : Condition → Prop} {A : Action → Prop}
    {s : Statement} (hC : ∀ c, C c → c.weight ≤ 2 * n) (hA : ∀ a, A a → a.weight ≤ 7 * n)
    (h : s.MadeOf C A) : s.weight ≤ 7 * n + 2 := by
  cases s with
  | perform deed =>
      obtain ⟨action, span⟩ := deed
      have haction := hA action h
      rw [Statement.weight, Deed.weight]
      omega
  | branch condition deeds span =>
      obtain ⟨hcondition, -, hdeeds⟩ := h
      have hc := hC condition hcondition
      rw [Statement.weight, Nat.max_le, Deed.weightIn_le]
      refine ⟨by omega, ?_⟩
      rintro ⟨action, span⟩ hmem
      have haction := hA action (hdeeds _ hmem)
      rw [Deed.weight]
      omega

theorem Action.weight_le_of_wellShaped {levels : Nat} {a : Action} (h : a.WellShaped levels) :
    a.weight ≤ 7 * levels := by
  induction levels generalizing a with
  | zero =>
      cases a with
      | effect _ => rw [Action.weight]
      | schedule _ _ _ _ _ => exact h.elim
  | succ levels ih =>
      cases a with
      | effect _ =>
          rw [Action.weight]
          exact Nat.zero_le _
      | schedule anchor turns guard note body =>
          obtain ⟨hguard, -, hbody⟩ := h
          have hin : Statement.weightIn 5 body ≤ 7 * (levels + 1) :=
            Statement.weightIn_le.mpr fun s hs => Nat.add_le_add_right
              (Statement.weight_le_of_madeOf (fun c => Condition.weight_le_of_wellShaped)
                (fun a => ih) (hbody s hs)) 5
          cases guard with
          | none =>
              rw [Action.weight]
              exact hin
          | some guard =>
              have hcondition := Condition.weight_le_of_wellShaped (hguard guard rfl)
              rw [Action.weight, Nat.max_le]
              exact ⟨by omega, hin⟩

/-- A document whose definitions are well shaped weighs at most seven levels for each level of
nesting, and two more. -/
theorem Document.weight_le_of_wellShaped {limit : Nat} {d : Document}
    (h : ∀ definition ∈ d.definitions, definition.WellShaped limit) :
    d.weight ≤ 7 * limit + 2 := by
  refine weight_le.mpr fun t ht s hs => ?_
  exact Statement.weight_le_of_madeOf (fun c => Condition.weight_le_of_wellShaped)
    (fun a => Action.weight_le_of_wellShaped) ((h _ ht).2 s hs)

end Storyworld

namespace Storyworld

open Formed

/-! ## Texts of documents

Which documents have a text in RON. The writer goes 128 levels deep; a source with few schedules
inside one another never needs as many, but the number of schedules that is allowed unless the
settings say otherwise does. -/

namespace Outcome

variable {settings : Settings} {source : List Char} {d : Document}

/-- The settings bound the weight of what is in the document of a source. -/
theorem weight_le (h : (ofSource settings source).document = some d) :
    d.weight ≤ 7 * settings.maxNesting + 2 := by
  obtain ⟨tokens, -, hdefinitions⟩ := definitions_built h
  refine Document.weight_le_of_wellShaped ?_
  rw [hdefinitions]
  exact Built.ofTree_ensures fun n _ => Shape.definition_wellShaped

/-- A source without a fault has a document, and that has a text in RON, none of its parts lying
deeper than the writer goes, if the settings allow few levels of nesting or it does not weigh much.
If it weighs more than these levels leave room for, some part does lie deeper. -/
theorem ofSource_ron (settings : Settings) (source : List Char)
    (h : (ofSource settings source).isOk) :
    ∃ d, (ofSource settings source).document = some d ∧
      (settings.maxNesting ≤ 16 ∨ d.weight ≤ 116 →
        (form d).levels ≤ Ron.maxLevels ∧ d.ron?.isSome) ∧
      (120 < d.weight → Ron.maxLevels < (form d).levels) := by
  obtain ⟨-, hsome⟩ := Bool.and_eq_true_iff.mp h
  obtain ⟨d, hd⟩ := Option.isSome_iff_exists.mp hsome
  have hweight := weight_le hd
  obtain ⟨hlower, hupper⟩ := d.levels_bounds
  refine ⟨d, hd, fun hshallow => ?_, fun hheavy => ?_⟩
  · have hlevels : (form d).levels ≤ Ron.maxLevels := by
      rw [Ron.maxLevels]
      omega
    exact ⟨hlevels, Ron.isSome_pretty? hlevels⟩
  · rw [Ron.maxLevels]
    omega

/-- A trigger whose message waits for `n` schedules, one inside the other. -/
def waiting (n : Nat) : List Char :=
  "trigger \"t\" when always\x7b".toList ++ schedules n ++ ['\x7d']
where
  schedules : Nat → List Char
    | 0 => "do show \"x\"".toList
    | n + 1 => "do schedule in 1\x7b".toList ++ schedules n ++ ['\x7d']

theorem ofSource_ron_waiting :
    (ofSource {} (waiting 3)).isOk ∧
    ∃ d, (ofSource {} (waiting 3)).document = some d ∧ d.weight = 15 ∧ d.ron?.isSome := by
  have hrun : (ofSource {} (waiting 3)).isOk ∧
      (ofSource {} (waiting 3)).document.all (·.weight = 15) := by decide +kernel
  obtain ⟨d, hd, hron, -⟩ := ofSource_ron {} (waiting 3) hrun.1
  have hweight : d.weight = 15 := by
    rw [hd, Option.all_some, decide_eq_true_eq] at hrun
    exact hrun.2
  exact ⟨hrun.1, d, hd, hweight, (hron (.inr (by omega))).2⟩

/-- Without settings a source free of faults can be too deep for the writer. -/
theorem ofSource_ron_waiting_tooDeep :
    (ofSource {} (waiting 25)).isOk ∧
    ∃ d, (ofSource {} (waiting 25)).document = some d ∧ Ron.maxLevels < (form d).levels ∧
      d.ron? = none := by
  have hrun : (ofSource {} (waiting 25)).isOk ∧ (ofSource {} (waiting 25)).document.any
      fun d => Ron.maxLevels < (form d).levels && d.ron?.isNone := by decide +kernel
  generalize ofSource {} (waiting 25) = o at hrun ⊢
  obtain ⟨d, hd, h⟩ := (Option.any_eq_true _ _).mp hrun.2
  obtain ⟨hdeep, hnone⟩ := Bool.and_eq_true_iff.mp h
  exact ⟨hrun.1, d, hd, of_decide_eq_true hdeep, Option.isNone_iff_eq_none.mp hnone⟩

end Outcome

end Storyworld
