import Storyworld.Proofs.Grammar.Document
import Storyworld.Proofs.Laying.Definitions

namespace Storyworld.Grammar.Lays

/-! What triggers lay, and with them all definitions. -/

variable {k : Bool} {α : Type} {pre : List Element} {e : α → List Element}

/-! ## Conditions -/

theorem continuesRooms (place : Place) : Lays false [] (fun _ => []) (Grammar.continuesRooms place) := by
  cases place with
  | standalone => exact .done rfl
  | grouped => exact aheadIs 1 _

theorem roomList (place : Place) : Lays k [] (fun n => [.node n]) (Grammar.roomList place) :=
  node (map (commaSeparated (word _) (continuesRooms place)).row)

theorem hasCondition : Lays k [] Prod.snd Grammar.hasCondition := by
  refine .andThen (oneOf _).none fun _ => ite (wordOf _ _) (ite (wordOf _ _) ?_)
  exact .bind (keyword _) fun _ => wordOf _ _

theorem missingCondition : Lays k [] Prod.snd Grammar.missingCondition :=
  .andThen (oneOf _).none fun _ => wordOf _ _

theorem flagCondition : Lays k [] Prod.snd Grammar.flagCondition := by
  refine .bind (eatKeyword _) fun _ => ite ?_ ?_
  · exact .andThen (keyword _) fun _ => wordOf _ _
  · exact .andThen (oneOf _).none fun _ => wordOf _ _

theorem npcCondition : Lays k [] Prod.snd Grammar.npcCondition := by
  refine .bind (eatKeyword _) fun _ => ite ?_ ?_
  · exact .andThen (keyword _) fun _ => .bind (word _) fun _ => .bind (word _) fun _ => .done rfl
  · refine .andThen (oneOf _).none fun _ => .bind (keyword _) fun _ => .bind (word _) fun _ => ?_
    exact .bind mood fun _ => .done rfl

theorem ambientCondition (place : Place) : Lays k [] Prod.snd (Grammar.ambientCondition place) := by
  refine .andThen (word _) fun _ => .bind (aheadIs 1 _) fun _ => .bind (atKeyword _) fun _ => ?_
  refine ite (.bind (keyword _) fun _ => .bind (keyword _) fun _ => ?_) (.done rfl)
  exact .bind (roomList place) fun _ => .done rfl

theorem query (place : Place) : Lays k [] Prod.snd (Grammar.query place) := by
  refine .bind (eatKeyword _) fun _ => ite hasCondition ?_
  refine .bind (eatKeyword _) fun _ => ite missingCondition ?_
  refine .bind (eatKeyword _) fun _ => ite flagCondition ?_
  refine .bind (eatKeyword _) fun _ => ite (.andThen (keyword _) fun _ => wordOf _ _) ?_
  refine .bind (eatKeyword _) fun _ => ite npcCondition ?_
  refine .bind (eatKeyword _) fun _ => ite ?_ ?_
  · exact .andThen (keyword _) fun _ => .bind (keyword _) fun _ => wordOf _ _
  refine .bind (eatKeyword _) fun _ => ite ?_ ?_
  · refine .andThen (word _) fun _ => .bind (keyword _) fun _ => .bind (keyword _) fun _ => ?_
    exact .bind (word _) fun _ => .done rfl
  refine .bind (eatKeyword _) fun _ => ite ?_ ?_
  · exact .andThen number fun _ => .bind (mark _) fun _ => .done rfl
  refine .bind (eatKeyword _) fun _ => ite (ambientCondition place) ?_
  refine .bind (eatKeyword _) fun _ => ite ?_ (unexpected _)
  exact .andThen (keyword _) fun _ => map (roomList place)

theorem conditionOver {member : Parse Node} (h : Lays true [] (fun n => [.node n]) member)
    (place : Place) : Lays k [] (fun n => [.node n]) (Grammar.conditionOver member place) := by
  refine .nodeBy (.bind (atOneOf _) fun _ => ite ?_ (query place))
  exact .andThen (oneOf _).none fun _ => .bind (parenthesized h).row fun _ => .done rfl

theorem tooDeep : Lays k pre e (Grammar.tooDeep : Parse α) :=
  .fails fun _ _ => run_failHere SyntaxFault.Cause.nestingTooDeep

theorem condition (levels : Nat) (place : Place) :
    Lays k [] (fun n => [.node n]) (Grammar.condition levels place) := by
  induction levels generalizing k place with
  | zero => exact conditionOver tooDeep place
  | succ levels ih => exact conditionOver (ih .grouped) place

/-! ## Events -/

theorem takeEvent : Lays k [] Prod.snd Grammar.takeEvent := by
  refine .andThen (keyword _) fun _ => .bind (word _) fun _ => .bind (eatKeyword _) fun _ => ?_
  exact ite (.bind (keyword _) fun _ => .bind (word _) fun _ => .done rfl) (.done rfl)

theorem useEvent : Lays k [] Prod.snd Grammar.useEvent := by
  refine .andThen (keyword _) fun _ => .bind (word _) fun _ => .bind (eatKeyword _) fun _ => ite ?_ ?_
  · refine .bind (keyword _) fun _ => .bind (word _) fun _ => .bind (keyword _) fun _ => ?_
    exact .bind (word _) fun _ => .done rfl
  · exact .bind (eatKeyword _) fun _ => ite (.bind (word _) fun _ => .done rfl) (.done rfl)

theorem event : Lays k [] (fun n => [.node n]) Grammar.event := by
  refine .nodeBy (.andThen (oneOf _) fun head => ?_)
  split
  case h_1 => exact .afresh (.done rfl)
  case h_4 => exact .afresh takeEvent
  case h_8 | h_9 => exact .afresh (.bind (keyword _) fun _ => .bind (keyword _) fun _ => wordOf _ _)
  case h_10 => exact .afresh useEvent
  case h_11 =>
    refine .afresh (.bind (word _) fun _ => .bind (keyword _) fun _ => .bind (keyword _) fun _ => ?_)
    exact .bind (word _) fun _ => .done rfl
  case h_12 | h_13 =>
    refine .afresh (.bind (keyword _) fun _ => .bind (word _) fun _ => .bind (keyword _) fun _ => ?_)
    exact .bind (keyword _) fun _ => .bind (word _) fun _ => .done rfl
  -- The first word is a part only where it tells how an item is eaten.
  case h_14 => exact .bind (keyword _) fun _ => .bind (word _) fun _ => .done rfl
  all_goals exact .afresh (.bind (keyword _) fun _ => wordOf _ _)

/-! ## Effects -/

theorem addAction : Lays k [] Prod.snd Grammar.addAction := by
  refine .bind (eatKeyword _) fun _ => ite (wordOf _ _) (.bind (eatKeyword _) fun _ => ite ?_ ?_)
  · refine .andThen (keyword _) fun _ => .bind (word _) fun _ => .bind (atKeyword _) fun _ => ?_
    exact ite (.bind (keywordThenNumber _ _) fun _ => .done rfl) (.done rfl)
  refine .bind (eatKeyword _) fun _ => ite ?_ (unexpected _)
  refine .andThen string fun _ => .bind (optional _ (keywordThenNumber _ _)) fun _ => ?_
  exact .bind (keyword _) fun _ => .bind (word _) fun _ => .done (by simp)

theorem flagAction (r : Rule) : Lays k [] Prod.snd (Grammar.flagAction r) :=
  .andThen (keyword _) fun _ => wordOf _ _

theorem replaceAction : Lays k [] Prod.snd Grammar.replaceAction := by
  refine .bind (eatKeyword _) fun _ => .andThen (keyword _) fun _ => .bind (word _) fun _ => ?_
  exact .bind (keyword _) fun _ => .bind (word _) fun _ => .done rfl

theorem spawnAction : Lays k [] Prod.snd Grammar.spawnAction := by
  refine .bind (eatKeyword _) fun _ => ite ?_ (.andThen (oneOf _).none fun _ => ?_)
  · refine .andThen (word _) fun _ => .bind (keyword _) fun _ => .bind (keyword _) fun _ => ?_
    exact .bind (word _) fun _ => .done rfl
  refine .bind (word _) fun _ => .bind (eatKeyword _) fun _ => ite ?_ ?_
  · exact .bind (oneOf _).none fun _ => .bind (word _) fun _ => .done rfl
  refine .bind (eatKeyword _) fun _ => ite ?_ (unexpected _)
  refine .bind (oneOf _).none fun _ => ite ?_ (ite (.done rfl) ?_)
  · exact .bind (word _) fun _ => .done rfl
  · exact .bind (keyword _) fun _ => .done rfl

theorem despawnAction : Lays k [] Prod.snd Grammar.despawnAction :=
  .andThen (oneOf _).none fun _ => wordOf _ _

theorem awardAction : Lays k [] Prod.snd Grammar.awardAction := by
  refine .andThen (keyword _) fun _ => .bind number fun _ => .bind (atKeyword _) fun _ => ?_
  exact ite (.bind (keywordThenString _ _) fun _ => .done rfl) (.done rfl)

theorem lockAction (itemRule exitRule : Rule) :
    Lays k [] Prod.snd (Grammar.lockAction itemRule exitRule) := by
  refine .andThen (oneOf _).none fun _ => ite (wordOf _ _) (.bind (keyword _) fun _ => ?_)
  refine .bind (word _) fun _ => .bind (keyword _) fun _ => ?_
  exact .bind (wordOrString _) fun _ => .done rfl

theorem revealAction : Lays k [] Prod.snd Grammar.revealAction := by
  refine .andThen (keyword _) fun _ => .bind (keyword _) fun _ => .bind (word _) fun _ => ?_
  refine .bind (keyword _) fun _ => .bind (word _) fun _ => .bind (keyword _) fun _ => ?_
  exact .bind (wordOrString _) fun _ => .done rfl

theorem pushAction : Lays k [] Prod.snd Grammar.pushAction :=
  .andThen (keyword _) fun _ => .bind (keyword _) fun _ => wordOf _ _

theorem setNpcAction : Lays k [] Prod.snd Grammar.setNpcAction := by
  refine .andThen (oneOf _).none fun _ => .bind (word _) fun _ => ite ?_ ?_
  · exact .bind boolean fun _ => .done rfl
  · exact .bind mood fun _ => .done rfl

theorem setAction : Lays k [] Prod.snd Grammar.setAction := by
  refine .andThen (oneOf _).none fun _ => ite ?_ (ite setNpcAction (ite ?_ ?_))
  · exact .bind (keyword _) fun _ => .bind (word _) fun _ => .bind string fun _ => .done rfl
  · refine .bind (keyword _) fun _ => .bind (keyword _) fun _ => .bind (word _) fun _ => ?_
    exact .bind (keyword _) fun _ => .bind (word _) fun _ => .bind string fun _ => .done rfl
  · exact .bind (keyword _) fun _ => .bind (word _) fun _ => .bind (word _) fun _ => .done rfl

theorem npcAction : Lays k [] Prod.snd Grammar.npcAction := by
  refine .andThen (oneOf _).none fun _ => ite ?_ (ite ?_ ?_)
  · exact .bind (word _) fun _ => .bind string fun _ => .done rfl
  · exact .bind (keyword _) fun _ => wordOf _ _
  · exact .bind (keyword _) fun _ => .bind (word _) fun _ => .bind string fun _ => .done rfl

theorem giveAction : Lays k [] Prod.snd Grammar.giveAction := by
  refine .andThen (keyword _) fun _ => .bind (word _) fun _ => .bind (keyword _) fun _ => ?_
  refine .bind (keyword _) fun _ => .bind (keyword _) fun _ => .bind (keyword _) fun _ => ?_
  exact .bind (word _) fun _ => .done rfl

theorem patchStatement : Lays k [] (fun n => [.node n]) Grammar.patchStatement := by
  refine .bind (atKeyword _) fun _ => ite (keywordThenString _ _) ?_
  refine .bind (atOneOf _) fun _ => ite (description _) ?_
  refine .bind (atKeyword _) fun _ => ite (keywordThenString _ _) ?_
  refine .bind (atKeyword _) fun _ => ite (keywordThenBoolean _ _) ?_
  refine .bind (atKeyword _) fun _ => ite (keywordThenBoolean _ _) ?_
  refine .bind (atKeyword _) fun _ => ite (containerState _) (.nodeBy ?_)
  exact .andThen (oneOf _).none fun _ => map ability

theorem modifyAction : Lays k [] Prod.snd Grammar.modifyAction := by
  refine .andThen (keyword _) fun _ => .bind (word _) fun _ => ?_
  exact .bind (blockOf _ patchStatement) fun _ => .done rfl

/-! ## Actions -/

theorem onFalse : Lays k [] (fun n => [.node n]) Grammar.onFalse := by
  refine .nodeBy (.andThen (keyword _) fun _ => .bind (oneOf _).none fun _ => ite (.done rfl) ?_)
  exact ite (.done rfl) (map number)

variable {guard body : Parse Node}

theorem scheduleGuard (hg : Lays true [] (fun n => [.node n]) guard) :
    Lays false [] Prod.snd (Grammar.scheduleGuard guard) := by
  refine .bind (eatKeyword _) fun _ => ite ?_ (.done rfl)
  exact .andThen hg fun _ => .bind (optional _ onFalse) fun _ => .done rfl

theorem scheduleAction (hg : Lays true [] (fun n => [.node n]) guard)
    (hb : Lays false [] (fun n => [.node n]) body) :
    Lays k [] Prod.snd (Grammar.scheduleAction guard body) := by
  refine .andThen (oneOf _) fun _ => .bind number fun _ => .bind (scheduleGuard hg) fun _ => ?_
  refine .bind (optional _ (keywordThenString _ _)) fun _ => .bind hb fun _ => ?_
  exact .done (by simp)

theorem actionOver (hg : Lays true [] (fun n => [.node n]) guard)
    (hb : Lays false [] (fun n => [.node n]) body) :
    Lays k [] (fun n => [.node n]) (Grammar.actionOver guard body) := by
  refine .nodeBy (.andThen (oneOf _).none fun head => ?_)
  split
  case h_1 => exact map string
  case h_2 => exact addAction
  case h_3 | h_4 | h_5 => exact flagAction _
  case h_6 => exact replaceAction
  case h_7 => exact spawnAction
  case h_8 => exact despawnAction
  case h_9 => exact awardAction
  case h_10 | h_11 => exact lockAction _ _
  case h_12 => exact revealAction
  case h_13 => exact pushAction
  case h_14 => exact setAction
  case h_15 => exact npcAction
  case h_16 => exact .bind (keyword _) fun _ => map string
  case h_17 | h_19 => exact .bind (keyword _) fun _ => wordOf _ _
  case h_18 => exact giveAction
  case h_20 => exact modifyAction
  case h_21 => exact scheduleAction hg hb

/-! ## Statements -/

variable {cond act : Parse Node}

theorem deed (ha : Lays false [] (fun n => [.node n]) act) :
    Lays k [] (fun n => [.node n]) (Grammar.deed act) :=
  node (.andThen (keyword _) fun _ => map ha)

theorem branch (hc : Lays false [] (fun n => [.node n]) cond)
    (ha : Lays false [] (fun n => [.node n]) act) :
    Lays k [] (fun n => [.node n]) (Grammar.branch cond act) := by
  refine node (.andThen (keyword _) fun _ => .bind hc fun _ => ?_)
  refine .bind (.block _ (.bind (atKeyword _) fun _ => ite (deed ha) ?_)) fun _ => .done rfl
  refine .bind (atKeyword _) fun _ => ite ?_ (unexpected _)
  exact .fails fun _ _ => run_failHere fun _ => .nestedConditional

theorem statements (hc : Lays false [] (fun n => [.node n]) cond)
    (ha : Lays false [] (fun n => [.node n]) act) :
    Lays k [] (fun n => [.node n]) (Grammar.statements cond act) :=
  node (map (blockOf _ (.bind (atKeyword _) fun _ => ite (deed ha) (branch hc ha))))

theorem action (levels : Nat) : Lays k [] (fun n => [.node n]) (Grammar.action levels) := by
  induction levels generalizing k with
  | zero => exact actionOver (condition 0 _) tooDeep
  | succ levels ih => exact actionOver (condition (levels + 1) _) (statements (condition levels _) ih)

/-! ## Triggers -/

theorem triggerModifier :
    Lays false [] (fun n? => n?.elim [] fun n => [.node n]) Grammar.triggerModifier := by
  refine .bind (atKeyword _) fun _ => ite (map (node ?_)) ?_
  · exact .andThen (keyword _) fun _ => .done rfl
  · exact .bind (atKeyword _) fun _ => ite (map (keywordThenString _ _)) (.done rfl)

theorem trigger (levels : Nat) : Lays k [] (fun n => [.node n]) (Grammar.trigger levels) := by
  refine node (.andThen (keyword _) fun _ => .bind string fun name => ?_)
  refine .bind triggerModifier.many.row fun modifiers => .bind (eatKeyword _) fun _ => ?_
  have hend : Lays false ([] ++ [] ++ [.token name] ++ modifiers.map .node ++ [])
      (fun cs => cs) (do
        let event ← Grammar.event
        let body ← Grammar.statements (Grammar.condition levels .standalone) (Grammar.action levels)
        return .token name :: modifiers.map .node ++ [.node event, .node body]) := by
    refine .bind event fun _ => .bind (statements (condition _ _) (action _)) fun _ => ?_
    exact .done (by simp)
  refine ite (.bind (d := fun _ => []) (unexpected _) fun _ => ?_) hend
  simpa using hend

/-! ## Definitions -/

theorem definitionWithin (levels : Nat) :
    Lays k [] (fun n => [.node n]) (Grammar.definitionWithin levels) := by
  refine .bind (atKeyword _) fun _ => ite roomSet ?_
  refine .bind (atKeyword _) fun _ => ite room ?_
  refine .bind (atKeyword _) fun _ => ite item ?_
  refine .bind (atKeyword _) fun _ => ite npc ?_
  refine .bind (atKeyword _) fun _ => ite (trigger levels) ?_
  refine .bind (atKeyword _) fun _ => ite spinner ?_
  exact .bind (atKeyword _) fun _ => ite goal (unexpected _)

end Storyworld.Grammar.Lays
