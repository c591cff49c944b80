import Storyworld.Document.Shape
import Storyworld.Proofs.Document.Spans
import Storyworld.Proofs.Layout.Building

namespace Storyworld.Baring.Built

/-! Building definitions other than triggers does not go by places. -/

open Bared

variable {α : Type} {of of' : Referent} {what what' : String} {n : Node}

/-! ## Rows of ids -/

theorem oneName (a : Id of → α) :
    Bared id (m := Shape.Reading) (do return a (← Shape.id what)) (do return a (← Shape.id what)) :=
  name.bind fun _ => pure _

theorem twoNames (a : Id of → Id of' → α) :
    Bared id (m := Shape.Reading) (do let x ← Shape.id what; let y ← Shape.id what'; return a x y)
      (do let x ← Shape.id what; let y ← Shape.id what'; return a x y) :=
  name.bind fun _ => name.bind fun _ => pure _

/-! ## Rooms -/

theorem roomSet : Bared RoomSet.withoutSpan (Shape.roomSet n) (Shape.roomSet n.bare) := by
  refine bind (d := Prod.map id Node.bare) (parts ?_) fun _ => ids.bind fun _ => done ?_
  · exact name.bind fun _ => child.bind fun _ => pure _
  · rw [Node.span_bare]
    rfl

theorem exitOption (exit : Exit) (n : Node) :
    Bared Exit.withoutSpan (Shape.exitOption exit n)
      (Shape.exitOption exit.withoutSpan n.bare) := by
  unfold Shape.exitOption
  simp only [Node.rule_bare]
  split
  · exact child.parts.collecting.bind fun _ => ids.collecting.bind fun _ => pure _
  · exact child.parts.collecting.bind fun _ => ids.collecting.bind fun _ => pure _
  · exact fills string.parts fun _ => rfl
  · exact pure _
  · exact pure _
  · exact misplaced _

theorem exit : Bared Exit.withoutSpan (Shape.exit n) (Shape.exit n.bare) := by
  refine bind (d := Prod.map id (Prod.map id (Option.map Node.bare)))
    (parts ?_).collecting fun p => ?_
  · exact wordOrString.bind fun _ => name.bind fun _ => (childOf? _).bind fun _ => pure _
  obtain ⟨direction, target, options?⟩ := p
  rw [Node.span_bare]
  cases options? with
  | none => exact pure _
  | some options =>
      simp only [Prod.map, Option.map_some, Node.nodes_bare]
      exact keepChanges exitOption _ _

theorem overlayCondition :
    Bared id (Shape.overlayCondition n) (Shape.overlayCondition n.bare) := by
  unfold Shape.overlayCondition
  simp only [Node.rule_bare]
  refine parts ?_
  split
  case h_10 => exact name.bind fun _ => child.bind fun _ => lenientMood.lift.bind fun _ => pure _
  case h_11 => exact twoNames _
  case h_12 => exact misplaced _
  all_goals exact oneName _

theorem moodLine : Bared id (Shape.moodLine n) (Shape.moodLine n.bare) :=
  parts (child.bind fun _ => strictMood.lift.bind fun _ => string.bind fun _ => pure _)

theorem textLine (first second : String) (firstRule : Rule) (texts : Option String × Option String)
    (n : Node) :
    Bared id (Shape.textLine first second firstRule texts n)
      (Shape.textLine first second firstRule texts n.bare) := by
  refine string.parts.collecting.bind fun _ => iteOn (by rw [Node.rule_bare]) ?_ ?_
  · exact (setOnce _ _).bind fun _ => pure _
  · exact (setOnce _ _).bind fun _ => pure _

theorem textPair (first second : String) (firstRule : Rule) (lines : List Node) :
    Bared id (Shape.textPair first second firstRule n lines)
      (Shape.textPair first second firstRule n.bare (lines.map Node.bare)) := by
  refine (keepChanges (textLine _ _ _) _ _).bind fun _ => (require _).collecting.bind fun _ => ?_
  exact (require _).collecting.bind fun _ => pure _

theorem generalPart (parts : List Overlay.Condition × Option String) (n : Node) :
    Bared id (Shape.generalPart parts n) (Shape.generalPart parts n.bare) := by
  refine iteOn (by rw [Node.rule_bare]) ?_ ?_
  · exact fills string.parts fun _ => rfl
  · exact (keep overlayCondition.collecting).bind fun _ => done (by simp)

theorem overlayKind : Bared id (Shape.overlayKind n) (Shape.overlayKind n.bare) := by
  unfold Shape.overlayKind
  simp only [Node.rule_bare]
  split
  case h_4 =>
    refine name.head.collecting.bind fun p => ?_
    simp only [Prod.map, Element.nodes_bareAll, List.isEmpty_map]
    refine (keepAll (fun _ => moodLine.collecting) _).bind fun _ => ?_
    exact checked (by rw [Node.span_bare]; rfl) (done (by simp))
  case h_5 =>
    rw [Node.nodes_bare]
    refine (foldlM generalPart _ _).bind fun _ => (require _).collecting.bind fun _ => pure _
  case h_6 => exact misplaced _
  all_goals
    refine name.head.collecting.bind fun p => ?_
    simp only [Prod.map, Element.nodes_bareAll]
    exact (textPair _ _ _ _).bind fun _ => pure _

theorem overlay : Bared Overlay.withoutSpan (Shape.overlay n) (Shape.overlay n.bare) :=
  overlayKind.bind fun _ => done (by rw [Node.span_bare]; rfl)

theorem roomStatement (room : Room) (n : Node) :
    Bared Room.withoutSpans (Shape.roomStatement room n)
      (Shape.roomStatement room.withoutSpans n.bare) := by
  unfold Shape.roomStatement
  simp only [Node.rule_bare]
  split
  · exact fills string.parts fun _ => rfl
  · exact fills string.parts fun _ => rfl
  · exact fills boolean.parts fun _ => rfl
  · exact exit.bind fun _ => done (by simp [Room.withoutSpans])
  · exact overlay.bind fun _ => done (by simp [Room.withoutSpans])

theorem room : Bared Room.withoutSpans (Shape.room n) (Shape.room n.bare) := by
  refine name.head.collecting.bind fun p => ?_
  simp only [Prod.map, Element.nodes_bareAll, Node.span_bare]
  exact keepChanges roomStatement _ _

/-! ## Items -/

theorem itemLocation : Bared id (Shape.itemLocation n) (Shape.itemLocation n.bare) := by
  unfold Shape.itemLocation
  simp only [Node.rule_bare]
  refine parts ?_
  split
  · exact pure _
  · exact oneName _
  · exact oneName _
  · exact oneName _
  · exact string.bind fun _ => pure _

theorem requirement : Bared id (Shape.requirement n) (Shape.requirement n.bare) :=
  parts (twoNames _)

theorem consumableStatement (draft : Shape.ConsumableDraft) (n : Node) :
    Bared id (Shape.consumableStatement draft n) (Shape.consumableStatement draft n.bare) := by
  have hend (used : WhenConsumed) : Bared (m := Shape.Collecting) id
      (do return { draft with
        whenConsumed := ← Shape.setOnce draft.whenConsumed "when_consumed" n.span used })
      (do return { draft with
        whenConsumed := ← Shape.setOnce draft.whenConsumed "when_consumed" n.bare.span used }) :=
    (setOnce _ _).bind fun _ => pure _
  unfold Shape.consumableStatement
  simp only [Node.rule_bare]
  split
  · refine number.parts.collecting.bind fun p => ?_
    obtain ⟨value, span⟩ := p
    have huses (uses : UInt32) : Bared (m := Shape.Collecting) id
        (do return { draft with
          usesLeft := ← Shape.setOnce draft.usesLeft "uses_left" n.span uses })
        (do return { draft with
          usesLeft := ← Shape.setOnce draft.usesLeft "uses_left" n.bare.span uses }) :=
      (setOnce _ _).bind fun _ => pure _
    exact ite ((report (.outOfRange _ _ span)).bind fun _ => huses _) (huses _)
  · exact child.parts.collecting.bind fun _ => ability.collecting.bind fun _ => pure _
  · exact hend _
  · exact name.parts.collecting.bind fun _ => hend _
  · exact name.parts.collecting.bind fun _ => hend _
  · exact misplaced _

theorem consumable : Bared id (Shape.consumable n) (Shape.consumable n.bare) := by
  unfold Shape.consumable
  rw [Node.nodes_bare]
  refine (keepChanges consumableStatement _ _).bind fun _ => (require _).collecting.bind fun _ => ?_
  exact (require _).collecting.bind fun _ => pure _

theorem itemStatement (item : Item) (n : Node) :
    Bared Item.withoutSpan (Shape.itemStatement item n)
      (Shape.itemStatement item.withoutSpan n.bare) := by
  unfold Shape.itemStatement
  simp only [Node.rule_bare]
  split
  case h_1 | h_2 => exact fills string.parts fun _ => rfl
  case h_3 | h_4 => exact fills boolean.parts fun _ => rfl
  case h_10 => exact ability.collecting.bind fun _ => pure _
  case h_11 => exact string.parts.collecting.bind fun _ => pure _
  case h_12 => exact token.parts.collecting.bind fun _ => fills (meaning _) fun _ => rfl
  case h_13 => exact requirement.collecting.bind fun _ => pure _
  case h_14 => exact consumable.bind fun _ => (setOnce _ _).bind fun _ => pure _
  case h_15 => exact misplaced _
  all_goals exact fills itemLocation fun _ => rfl

theorem item : Bared Item.withoutSpan (Shape.item n) (Shape.item n.bare) := by
  refine name.head.collecting.bind fun p => ?_
  simp only [Prod.map, Element.nodes_bareAll, Node.span_bare]
  exact keepChanges itemStatement _ _

/-! ## Npcs -/

theorem movementOption (movement : Movement) (n : Node) :
    Bared id (Shape.movementOption movement n) (Shape.movementOption movement n.bare) := by
  unfold Shape.movementOption
  simp only [Node.rule_bare]
  split
  · exact fills name.parts fun _ => rfl
  · exact fills boolean.parts fun _ => rfl
  · exact fills boolean.parts fun _ => rfl
  · exact misplaced _

theorem movement : Bared id (Shape.movement n) (Shape.movement n.bare) := by
  have hhead : Bared (Prod.map id Node.bare) (m := Shape.Reading)
      (do return (← Shape.word "movement kind", ← Shape.child "movement rooms"))
      (do return (← Shape.word "movement kind", ← Shape.child "movement rooms")) :=
    word.bind fun _ => child.bind fun _ => pure _
  refine (hhead.head (n := n)).collecting.bind fun p => ?_
  obtain ⟨⟨kind, list⟩, options⟩ := p
  simp only [Prod.map, Element.nodes_bareAll]
  exact ids.collecting.bind fun _ => foldlM movementOption _ _

theorem dialogue : Bared Dialogue.withoutSpan (Shape.dialogue n) (Shape.dialogue n.bare) := by
  refine bind (d := Prod.map id Element.bareAll) (head ?_) fun p => ?_
  · exact child.bind fun _ => strictMood.lift
  have hlines : (Element.tokens (Element.bareAll p.2)).filterMap Token.stringValue? =
      (Element.tokens p.2).filterMap Token.stringValue? := by
    rw [Element.tokens_bareAll, List.filterMap_map]
    rfl
  simp only [Prod.map, hlines, Node.span_bare]
  exact checked rfl (pure _)

theorem npcStatement (npc : Npc) (n : Node) :
    Bared Npc.withoutSpans (Shape.npcStatement npc n)
      (Shape.npcStatement npc.withoutSpans n.bare) := by
  unfold Shape.npcStatement
  simp only [Node.rule_bare]
  split
  · exact fills string.parts fun _ => rfl
  · exact fills string.parts fun _ => rfl
  · exact fills name.parts fun _ => rfl
  · exact fills string.parts fun _ => rfl
  · exact child.parts.collecting.bind fun _ => fills strictMood fun _ => rfl
  · exact movement.bind fun _ => (setOnce _ _).bind fun _ => pure _
  · exact dialogue.collecting.bind fun _ => done (by simp [Npc.withoutSpans])
  · exact misplaced _

theorem npc : Bared Npc.withoutSpans (Shape.npc n) (Shape.npc n.bare) := by
  refine name.head.collecting.bind fun p => ?_
  simp only [Prod.map, Element.nodes_bareAll, List.isEmpty_map, Node.span_bare]
  exact checked rfl (keepChanges npcStatement _ _)

/-! ## Spinners -/

theorem width? : Bared id Shape.width? Shape.width? := by
  refine (childOf? _).bind fun n? => ?_
  cases n? with
  | none => exact pure none
  | some n => exact positive.parts.lift.bind fun _ => pure _

theorem wedge : Bared Wedge.withoutSpan (Shape.wedge n) (Shape.wedge n.bare) := by
  unfold Shape.wedge
  simp only [Node.rule_bare, Node.span_bare]
  refine checked (by rw [Node.misplaced, Node.span_bare]; rfl) (parts ?_)
  exact string.bind fun _ => width?.bind fun _ => pure _

theorem spinner : Bared Spinner.withoutSpans (Shape.spinner n) (Shape.spinner n.bare) := by
  refine wordOrString.head.bind fun p => ?_
  simp only [Prod.map, Element.nodes_bareAll, Node.span_bare]
  refine bind (d := List.map Wedge.withoutSpan) (Bared.mapM (fun n => wedge) _) fun ws => ?_
  simp only [List.isEmpty_map]
  exact checked rfl (pure _)

/-! ## Goals -/

theorem goalCondition : Bared id (Shape.goalCondition n) (Shape.goalCondition n.bare) := by
  unfold Shape.goalCondition
  simp only [Node.rule_bare]
  refine parts ?_
  split
  case h_8 => exact misplaced _
  all_goals exact oneName _

theorem goalStatement (draft : Shape.GoalDraft) (n : Node) :
    Bared id (Shape.goalStatement draft n) (Shape.goalStatement draft n.bare) := by
  unfold Shape.goalStatement
  simp only [Node.rule_bare]
  split
  case h_1 | h_2 => exact fills string.parts fun _ => rfl
  case h_3 => exact token.parts.collecting.bind fun _ => fills (meaning _) fun _ => rfl
  case h_7 => exact misplaced _
  all_goals exact child.parts.collecting.bind fun _ => fills goalCondition fun _ => rfl

theorem goal : Bared Goal.withoutSpan (Shape.goal n) (Shape.goal n.bare) := by
  refine name.head.collecting.bind fun p => ?_
  simp only [Prod.map, Element.nodes_bareAll, List.isEmpty_map]
  refine (foldlM goalStatement _ _).bind fun _ => checked (by rw [Node.span_bare]; rfl) ?_
  refine (require _).collecting.bind fun _ => (require _).collecting.bind fun _ => ?_
  refine (require _).collecting.bind fun _ => (require _).collecting.bind fun _ => ?_
  exact (require _).collecting.bind fun _ => done (by rw [Node.span_bare]; rfl)

end Storyworld.Baring.Built

namespace Storyworld

/-- The parts of a schedule with the places left out. -/
def Shape.ScheduleParts.bare (p : Shape.ScheduleParts) : Shape.ScheduleParts :=
  { p with guard := p.guard.bare, body := p.body.bare }

namespace Baring.Built

/-! ## Triggers and documents

Building triggers, and with them all definitions, does not go by places. -/

open Bared

variable {n : Node} {what : String}

/-! ## Conditions and events -/

theorem chance (value : Int64) (span : Span) :
    Bared id (Shape.chance value span) (Shape.chance value .origin) :=
  ite (pure _) (refuse rfl)

theorem query : Bared id (Shape.query n) (Shape.query n.bare) := by
  unfold Shape.query
  simp only [Node.rule_bare]
  refine parts ?_
  split
  case h_9 | h_12 => exact twoNames _
  case h_10 => exact name.bind fun _ => child.bind fun _ => lenientMood.lift.bind fun _ => pure _
  case h_13 => exact number.bind fun _ => (chance _ _).lift.bind fun _ => pure _
  case h_14 =>
    refine name.bind fun _ => (childOf? _).bind fun list? => ?_
    cases list? with
    | none => exact pure _
    | some list => exact ids.lift.bind fun _ => pure _
  case h_15 => exact child.bind fun _ => ids.lift.bind fun _ => pure _
  case h_16 => exact misplaced _
  all_goals exact oneName _

theorem tooDeep_bare {limit : Nat} : Shape.tooDeep limit n.bare = (Shape.tooDeep limit n).bare := by
  rw [Shape.tooDeep, Node.span_bare]
  rfl

theorem conditionOver {member : Node → Except ShapeFault Condition}
    (h : ∀ n, Bared id (member n) (member n.bare)) (n : Node) :
    Bared id (Shape.conditionOver member n) (Shape.conditionOver member n.bare) := by
  unfold Shape.conditionOver
  simp only [Node.rule_bare, Node.nodes_bare, Node.span_bare]
  refine ite ((Bared.mapM h _).bind fun cs => ?_) (query.bind fun _ => pure _)
  simp only [List.map_id]
  exact checked rfl (pure _)

theorem condition (limit levels : Nat) (n : Node) :
    Bared id (Shape.condition limit levels n) (Shape.condition limit levels n.bare) := by
  induction levels generalizing n with
  | zero => exact conditionOver (fun _ => refuse tooDeep_bare) n
  | succ levels ih => exact conditionOver ih n

theorem event : Bared id (Shape.event n) (Shape.event n.bare) := by
  unfold Shape.event
  simp only [Node.rule_bare]
  refine parts ?_
  split
  case h_1 => exact pure _
  case h_10 => exact name.bind fun _ => token?.bind fun t? => done (by cases t? <;> rfl)
  case h_11 => exact name.bind fun _ => twoNames _
  case h_12 | h_13 | h_14 | h_15 => exact twoNames _
  case h_16 => exact token.bind fun _ => (meaning _).lift.bind fun _ => oneName _
  case h_17 => exact misplaced _
  all_goals exact oneName _

/-! ## Effects -/

theorem countIn? (rule : Rule) :
    Bared id (Shape.countIn? rule what) (Shape.countIn? rule what) := by
  refine (childOf? _).bind fun n? => ?_
  cases n? with
  | none => exact pure none
  | some n => exact count.parts.lift.bind fun _ => pure _

theorem stringIn? (rule : Rule) :
    Bared id (Shape.stringIn? rule what) (Shape.stringIn? rule what) := by
  refine (childOf? _).bind fun n? => ?_
  cases n? with
  | none => exact pure none
  | some n => exact string.parts.lift.bind fun _ => pure _

theorem effect : Bared id (Shape.effect n) (Shape.effect n.bare) := by
  unfold Shape.effect
  simp only [Node.rule_bare]
  refine parts ?_
  split
  case h_1 | h_30 => exact string.bind fun _ => pure _
  case h_6 => exact name.bind fun _ => (countIn? _).bind fun _ => pure _
  case h_7 => exact string.bind fun _ => width?.bind fun _ => name.bind fun _ => pure _
  case h_8 | h_9 | h_10 | h_11 | h_14 | h_32 => exact twoNames _
  case h_17 => exact number.bind fun _ => (stringIn? _).bind fun _ => pure _
  case h_20 | h_21 => exact name.bind fun _ => wordOrString.bind fun _ => pure _
  case h_22 => exact name.bind fun _ => name.bind fun _ => wordOrString.bind fun _ => pure _
  case h_24 | h_25 | h_27 => exact name.bind fun _ => string.bind fun _ => pure _
  case h_28 => exact name.bind fun _ => boolean.bind fun _ => pure _
  case h_29 => exact name.bind fun _ => child.bind fun _ => lenientMood.lift.bind fun _ => pure _
  case h_33 => exact name.bind fun _ => name.bind fun _ => string.bind fun _ => pure _
  case h_34 => exact name.bind fun _ => token.bind fun _ => (meaning _).lift.bind fun _ => pure _
  case h_36 => exact misplaced _
  all_goals exact oneName _

/-! ## Changes to an item -/

theorem patchStatement (patch : ItemPatch) (n : Node) :
    Bared id (Shape.patchStatement patch n) (Shape.patchStatement patch n.bare) := by
  unfold Shape.patchStatement
  simp only [Node.rule_bare]
  split
  case h_1 | h_2 | h_3 => exact fills string.parts fun _ => rfl
  case h_4 | h_5 => exact fills boolean.parts fun _ => rfl
  case h_6 => exact token.parts.collecting.bind fun _ => fills (meaning _) fun _ => rfl
  case h_7 | h_8 =>
    exact child.parts.collecting.bind fun _ => ability.collecting.bind fun _ => pure _
  case h_9 => exact misplaced _

theorem modifyItem : Bared id (Shape.modifyItem n) (Shape.modifyItem n.bare) := by
  refine name.head.collecting.bind fun p => ?_
  simp only [Prod.map, Element.nodes_bareAll]
  exact (foldlM patchStatement _ _).bind fun _ => pure _

/-! ## Schedules -/

theorem retryPolicy : Bared id (Shape.retryPolicy n) (Shape.retryPolicy n.bare) := by
  unfold Shape.retryPolicy
  simp only [Node.rule_bare]
  split
  · exact pure _
  · exact pure _
  · exact parts (count.bind fun _ => pure _)

theorem anchor : Bared id Shape.anchor Shape.anchor :=
  word.bind fun _ => pure _

theorem scheduleParts : Bared Shape.ScheduleParts.bare Shape.scheduleParts Shape.scheduleParts := by
  have hend (anchor : Anchor) (turns : UInt32) (guard : Node) (retry : Option RetryPolicy) :
      Bared (m := Shape.Reading) Shape.ScheduleParts.bare
        (do
          let note ← Shape.stringIn? .note "note"
          let body ← Shape.child "schedule body"
          return { anchor, turns, guard, retry, note, body })
        (do
          let note ← Shape.stringIn? .note "note"
          let body ← Shape.child "schedule body"
          return { anchor, turns, guard := guard.bare, retry, note, body }) :=
    (stringIn? _).bind fun _ => child.bind fun _ => pure _
  refine anchor.bind fun _ => count.bind fun _ => child.bind fun _ => (childOf? _).bind fun n? => ?_
  cases n? with
  | none => exact hend _ _ _ _
  | some n => exact retryPolicy.lift.bind fun _ => hend _ _ _ _

section

variable {guard : Node → Except ShapeFault Condition}
  {body : Node → Shape.Collecting (List Statement)}

theorem plainSchedule (hb : ∀ n, Bared Statement.allWithoutSpans (body n) (body n.bare)) :
    Bared Action.withoutSpans (Shape.plainSchedule body n) (Shape.plainSchedule body n.bare) := by
  refine bind (d := Prod.map id (Prod.map id (Prod.map id Node.bare)))
    (parts ?_).collecting fun _ => ?_
  · refine anchor.bind fun _ => count.bind fun _ => (stringIn? _).bind fun _ => ?_
    exact child.bind fun _ => pure _
  · exact (hb _).bind fun _ => pure _

theorem guardedSchedule (hg : ∀ n, Bared id (guard n) (guard n.bare))
    (hb : ∀ n, Bared Statement.allWithoutSpans (body n) (body n.bare)) :
    Bared Action.withoutSpans (Shape.guardedSchedule guard body n)
      (Shape.guardedSchedule guard body n.bare) := by
  refine scheduleParts.parts.collecting.bind fun parts => ?_
  have hguard : guard parts.bare.guard = Shape.bareBuilt id (guard parts.guard) := hg parts.guard
  rw [hguard]
  cases guard parts.guard with
  | ok condition => exact (hb parts.body).bind fun _ => pure _
  | error fault => exact (keep (hb parts.body)).discard.bind fun _ => refuse rfl

/-! ## Actions and statements -/

theorem actionOver (hg : ∀ n, Bared id (guard n) (guard n.bare))
    (hb : ∀ n, Bared Statement.allWithoutSpans (body n) (body n.bare)) (n : Node) :
    Bared Action.withoutSpans (Shape.actionOver guard body n)
      (Shape.actionOver guard body n.bare) := by
  unfold Shape.actionOver
  simp only [Node.rule_bare]
  split
  · exact modifyItem.bind fun _ => pure _
  · exact plainSchedule hb
  · exact guardedSchedule hg hb
  · exact effect.collecting.bind fun _ => pure _

end

section

variable {condition : Node → Except ShapeFault Condition} {action : Node → Shape.Collecting Action}
  (hc : ∀ n, Bared id (condition n) (condition n.bare))
  (ha : ∀ n, Bared Action.withoutSpans (action n) (action n.bare))

include ha

theorem deed (n : Node) :
    Bared Deed.withoutSpans (Shape.deed action n) (Shape.deed action n.bare) := by
  refine child.parts.collecting.bind fun _ => (ha _).bind fun _ => done ?_
  rw [Node.span_bare]
  rfl

include hc

theorem branch (n : Node) :
    Bared Statement.withoutSpans (Shape.branch condition action n)
      (Shape.branch condition action n.bare) := by
  refine child.head.collecting.bind fun p => ?_
  simp only [Prod.map, Element.nodes_bareAll, List.isEmpty_map, Node.span_bare]
  refine (keepAll (deed ha) _).bind fun ds => (hc _).collecting.bind fun _ => checked rfl (done ?_)
  rw [Statement.withoutSpans, Deed.allWithoutSpans_eq]
  rfl

theorem statement (n : Node) :
    Bared Statement.withoutSpans (Shape.statement condition action n)
      (Shape.statement condition action n.bare) := by
  unfold Shape.statement
  simp only [Node.rule_bare]
  split
  · exact (deed ha n).bind fun _ => pure _
  · exact branch hc ha n
  · exact misplaced _

theorem statements (n : Node) :
    Bared Statement.allWithoutSpans (Shape.statements condition action n)
      (Shape.statements condition action n.bare) := by
  unfold Shape.statements
  simp only [Node.nodes_bare, List.isEmpty_map, Node.span_bare, funext Statement.allWithoutSpans_eq]
  exact checked rfl (keepAll (statement hc ha) _)

end

theorem action (limit levels : Nat) (n : Node) :
    Bared Action.withoutSpans (Shape.action limit levels n) (Shape.action limit levels n.bare) := by
  induction levels generalizing n with
  | zero => exact actionOver (condition limit 0) (fun _ => refuse tooDeep_bare) n
  | succ levels ih =>
      exact actionOver (condition limit (levels + 1)) (statements (condition limit levels) ih) n

/-! ## Triggers and definitions -/

theorem notes (ns : List Node) : Bared id (Shape.notes ns) (Shape.notes (ns.map Node.bare)) := by
  have hrule :
      (fun n => decide (n.rule = .note)) ∘ Node.bare = fun n => decide (n.rule = .note) := by
    funext n
    simp
  have hid : (id : List String → List String) = List.map id := funext fun _ => (List.map_id _).symm
  unfold Shape.notes
  rw [List.filter_map, hrule, hid]
  refine Bared.mapM (fun _ => ?_) _
  exact string.parts

theorem trigger (limit : Nat) :
    Bared Trigger.withoutSpans (Shape.trigger limit n) (Shape.trigger limit n.bare) := by
  refine bind
    (d := Prod.map id (Prod.map (List.map Node.bare) (Prod.map id (Prod.map id Node.bare))))
    (parts ?_).collecting fun p => ?_
  · refine string.bind fun _ => (childrenOf _).bind fun _ => (notes _).lift.bind fun _ => ?_
    exact child.bind fun _ => event.lift.bind fun _ => child.bind fun _ => pure _
  refine (statements (condition limit limit) (action limit limit) _).bind fun _ => done ?_
  simp [Trigger.withoutSpans, List.any_map, Function.comp_def]

theorem definition (limit : Nat) (n : Node) :
    Bared Definition.withoutSpans (Shape.definition limit n) (Shape.definition limit n.bare) := by
  unfold Shape.definition
  simp only [Node.rule_bare]
  split
  · exact roomSet.collecting.bind fun _ => pure _
  · exact room.bind fun _ => pure _
  · exact item.bind fun _ => pure _
  · exact npc.bind fun _ => pure _
  · exact (trigger limit).bind fun _ => pure _
  · exact spinner.collecting.bind fun _ => pure _
  · exact goal.bind fun _ => pure _
  · exact misplaced _

end Baring.Built

end Storyworld
