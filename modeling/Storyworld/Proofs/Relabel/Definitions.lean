import Storyworld.Document.Grammar
import Storyworld.Proofs.Relabel.Uniform

namespace Storyworld.Grammar.Uniform

/-! Definitions are read by kinds and reserved words alone. -/

variable {w : Relabelling}

/-! ## Phrases -/

/-- A row of one token. -/
theorem one {p q : Parse Token} (h : Uniform w w.token p q) :
    Uniform w w.elements (do return [.token (← p)]) (do return [.token (← q)]) :=
  h.bind fun _ => .pure _

/-- A row of one node. -/
theorem oneNode {p q : Parse Node} (h : Uniform w w.node p q) :
    Uniform w w.elements (do return [.node (← p)]) (do return [.node (← q)]) :=
  h.bind fun _ => .pure _

/-- A rule and a row of one word. -/
theorem wordOf (r : Rule) (what : String) :
    Uniform w w.parts (do return (r, [.token (← Grammar.word what)]))
      (do return (r, [.token (← Grammar.word what)])) :=
  (word what).bind fun _ => .pure _

theorem keywordThenString (r : Rule) (key : String) :
    Uniform w w.node (Grammar.keywordThenString r key) (Grammar.keywordThenString r key) :=
  node r ((keyword key).bind fun _ => string.one)

theorem keywordThenNumber (r : Rule) (key : String) :
    Uniform w w.node (Grammar.keywordThenNumber r key) (Grammar.keywordThenNumber r key) :=
  node r ((keyword key).bind fun _ => number.one)

theorem keywordThenBoolean (r : Rule) (key : String) :
    Uniform w w.node (Grammar.keywordThenBoolean r key) (Grammar.keywordThenBoolean r key) :=
  node r ((keyword key).bind fun _ => boolean.one)

theorem optional (key : String) {p q : Parse Node} (h : Uniform w w.node p q) :
    Uniform w w.elements (Grammar.optional key p) (Grammar.optional key q) :=
  (atKeyword key).bind fun _ => ite h.oneNode (.pure [])

theorem description (r : Rule) :
    Uniform w w.node (Grammar.description r) (Grammar.description r) :=
  node r (choice _ fun _ _ => string.one)

/-- A row of tokens. -/
theorem tokens {p q : Parse (List Token)} (h : Uniform w (List.map w.token) p q) :
    Uniform w w.elements (do return (← p).map .token) (do return (← q).map .token) :=
  h.bind fun _ => .done (w.elements_map_token _).symm

/-- A row of nodes. -/
theorem nodes {p q : Parse (List Node)} (h : Uniform w (List.map w.node) p q) :
    Uniform w w.elements (do return (← p).map .node) (do return (← q).map .node) :=
  h.bind fun _ => .done (w.elements_map_node _).symm

theorem idList (what : String) : Uniform w w.node (Grammar.idList what) (Grammar.idList what) :=
  node _ (word what).parenthesized.tokens

theorem mood : Uniform w w.node Grammar.mood Grammar.mood := by
  refine (aheadIs 1 fun _ => rfl).bind fun _ => (atKeyword _).bind fun _ => ite (node _ ?_) ?_
  · refine (keyword _).bind fun _ => (eatMark _).bind fun _ => ite ?_ (word _).one
    exact (word _).bind fun _ => (mark _).bind fun _ => .pure _
  · exact node _ (word _).one

theorem ability : Uniform w w.node Grammar.ability Grammar.ability := by
  refine node _ ((keyword _).bind fun _ => (word _).bind fun _ => (eatMark _).bind fun _ => ?_)
  exact ite ((word _).bind fun _ => (mark _).bind fun _ => .pure _) (.pure _)

theorem containerState (r : Rule) :
    Uniform w w.node (Grammar.containerState r) (Grammar.containerState r) :=
  node r ((keyword _).bind fun _ => (keyword _).bind fun _ => (word _).one)

/-- A word that tells what is defined, its id, and statements in braces. -/
theorem definitionOf {p q : Parse Node} {id id' : Parse Token} (r : Rule) (key : String)
    (starters : List String) (hid : Uniform w w.token id id') (h : Uniform w w.node p q) :
    Uniform w w.node
      (Grammar.node r do
        Grammar.keyword key
        let name ← id
        let statements ← Grammar.blockOf starters p
        return .token name :: statements.map .node)
      (Grammar.node r do
        Grammar.keyword key
        let name ← id'
        let statements ← Grammar.blockOf starters q
        return .token name :: statements.map .node) := by
  refine node r ((keyword key).bind fun _ => hid.bind fun name => ?_)
  refine (h.blockOf starters).bind fun ns => ?_
  exact .done (congrArg (.token (w.token name) :: ·) (w.elements_map_node ns).symm)

/-! ## Rooms -/

theorem roomSet : Uniform w w.node Grammar.roomSet Grammar.roomSet := by
  refine node _ ((keyword _).bind fun _ => (keyword _).bind fun _ => (word _).bind fun _ => ?_)
  exact (mark _).bind fun _ => (idList _).bind fun _ => .pure _

theorem exitOption : Uniform w w.node Grammar.exitOption Grammar.exitOption := by
  refine (atKeyword _).bind fun _ => ite (node _ ?_) ?_
  · exact (keyword _).bind fun _ => (idList _).oneNode
  refine (atKeyword _).bind fun _ => ite (node _ ?_) ?_
  · exact (keyword _).bind fun _ => (idList _).oneNode
  refine (atKeyword _).bind fun _ => ite (keywordThenString _ _) ?_
  refine (atKeyword _).bind fun _ => ite (node _ ?_) (node _ ?_)
  · exact (keyword _).bind fun _ => .pure []
  · exact (keyword _).bind fun _ => .pure []

theorem exitOptions : Uniform w w.node Grammar.exitOptions Grammar.exitOptions := by
  refine node _ (nodes (blockOf _ ?_))
  exact exitOption.bind fun _ => (eatMark _).discard.bind fun _ => .pure _

theorem exit : Uniform w w.node Grammar.exit Grammar.exit := by
  refine node _ ((keyword _).bind fun _ => (wordOrString _).bind fun _ => (mark _).bind fun _ => ?_)
  refine (word _).bind fun _ => (atMark _).bind fun _ => ite ?_ (.pure _)
  exact exitOptions.bind fun _ => .pure _

theorem overlayCondition : Uniform w w.node Grammar.overlayCondition Grammar.overlayCondition := by
  refine nodeBy ((eatKeyword _).bind fun _ => ite ?_ ((eatKeyword _).bind fun _ => ite ?_ ?_))
  · exact choice _ fun _ _ => wordOf _ _
  · refine (eatKeyword _).bind fun _ => ite ?_ (choice _ fun _ _ => wordOf _ _)
    exact (keyword _).bind fun _ => (word _).bind fun _ => (word _).bind fun _ => .pure _
  refine (eatKeyword _).bind fun _ => ite ?_ ((eatKeyword _).bind fun _ => ite ?_ (unexpected _))
  · exact choice _ fun _ _ => (keyword _).bind fun _ => wordOf _ _
  · refine (eatKeyword _).bind fun _ => ite ?_ (choice _ fun _ _ => wordOf _ _)
    exact (keyword _).bind fun _ => (word _).bind fun _ => mood.bind fun _ => .pure _

theorem moodLines : Uniform w (List.map w.node) Grammar.moodLines Grammar.moodLines :=
  blockOf _ (node _ (mood.bind fun _ => string.bind fun _ => .pure _))

theorem textPair (first second : String) (firstRule secondRule : Rule) :
    Uniform w (List.map w.node) (Grammar.textPair first second firstRule secondRule)
      (Grammar.textPair first second firstRule secondRule) :=
  blockOf _ ((atKeyword _).bind fun _ => ite (keywordThenString _ _) (keywordThenString _ _))

theorem generalOverlay :
    Uniform w (List.map w.node) Grammar.generalOverlay Grammar.generalOverlay := by
  have hend (conditions : List Node) : Uniform w (List.map w.node)
      (do
        let texts ← Grammar.blockOf ["text"] (Grammar.keywordThenString .overlayText "text")
        return conditions ++ texts)
      (do
        let texts ← Grammar.blockOf ["text"] (Grammar.keywordThenString .overlayText "text")
        return conditions.map w.node ++ texts) :=
    (blockOf _ (keywordThenString _ _)).bind fun _ => .done List.map_append.symm
  refine (eatMark _).bind fun _ => (overlayCondition.commaSeparated (.pure true)).bind fun ns => ?_
  exact ite ((mark _).bind fun _ => hend ns) (hend ns)

/-- A rule, a subject and the nodes behind it. -/
theorem subjectAndNodes (r : Rule) (t : Token) {p q : Parse (List Node)}
    (h : Uniform w (List.map w.node) p q) :
    Uniform w w.parts (do return (r, .token t :: (← p).map .node))
      (do return (r, .token (w.token t) :: (← q).map .node)) := by
  refine h.bind fun ns => .done ?_
  exact congrArg (fun cs => (r, .token (w.token t) :: cs)) (w.elements_map_node ns).symm

theorem overlay : Uniform w w.node Grammar.overlay Grammar.overlay := by
  refine nodeBy ((keyword _).bind fun _ => (keyword _).bind fun _ => ?_)
  refine (aheadIs 2 fun _ => rfl).bind fun _ => (aheadIs 2 fun _ => rfl).bind fun _ => ?_
  refine (aheadIs 3 fun _ => rfl).bind fun _ => (atKeyword _).bind fun _ => ite ?_ ?_
  · refine (keyword _).bind fun _ => (word _).bind fun flag => ?_
    exact (textPair _ _ _ _).subjectAndNodes _ flag
  refine (atOneOf _).bind fun _ => ite ?_ ((atKeyword _).bind fun _ => ite ?_ ?_)
  · have hend (isItem : Bool) : Uniform w w.parts
        (do
          let subject ← Grammar.word "id"
          let texts ← Grammar.textPair "present" "absent" .overlayPresentText .overlayAbsentText
          let rule := if isItem then Rule.overlayItemPresence else .overlayNpcPresence
          return (rule, .token subject :: texts.map .node))
        (do
          let subject ← Grammar.word "id"
          let texts ← Grammar.textPair "present" "absent" .overlayPresentText .overlayAbsentText
          let rule := if isItem then Rule.overlayItemPresence else .overlayNpcPresence
          return (rule, .token subject :: texts.map .node)) :=
      (word _).bind fun subject => (textPair _ _ _ _).subjectAndNodes _ subject
    refine (eatKeyword _).bind fun isItem => ite ?_ (hend isItem)
    exact (keyword _).bind fun _ => hend isItem
  · refine (keyword _).bind fun _ => (word _).bind fun npc => (keyword _).bind fun _ => ?_
    exact moodLines.subjectAndNodes _ npc
  · refine generalOverlay.bind fun ns => .done ?_
    exact congrArg (Prod.mk _) (w.elements_map_node ns).symm

theorem roomStatement : Uniform w w.node Grammar.roomStatement Grammar.roomStatement := by
  refine (atKeyword _).bind fun _ => ite (keywordThenString _ _) ?_
  refine (atOneOf _).bind fun _ => ite (description _) ?_
  refine (atKeyword _).bind fun _ => ite (keywordThenBoolean _ _) ?_
  exact (atKeyword _).bind fun _ => ite exit overlay

theorem room : Uniform w w.node Grammar.room Grammar.room :=
  definitionOf _ _ _ (word _) roomStatement

/-! ## Items -/

theorem whenConsumed : Uniform w w.node Grammar.whenConsumed Grammar.whenConsumed := by
  refine nodeBy ((keyword _).bind fun _ => (eatKeyword _).bind fun _ => ite (.pure (_, [])) ?_)
  refine (keyword _).bind fun _ => (eatKeyword _).bind fun _ => ite ?_ ?_
  · exact (word _).bind fun _ => .pure _
  · refine (eatKeyword _).bind fun _ => ite ?_ (unexpected _)
    exact (keyword _).bind fun _ => (word _).bind fun _ => .pure _

theorem consumableStatement :
    Uniform w w.node Grammar.consumableStatement Grammar.consumableStatement := by
  refine (atKeyword _).bind fun _ => ite (keywordThenNumber _ _) ?_
  refine (atKeyword _).bind fun _ => ite (node _ ?_) whenConsumed
  exact (keyword _).bind fun _ => ability.oneNode

theorem consumable : Uniform w w.node Grammar.consumable Grammar.consumable :=
  node _ ((keyword _).bind fun _ => (blockOf _ consumableStatement).nodes)

theorem itemLocation : Uniform w w.node Grammar.itemLocation Grammar.itemLocation := by
  refine nodeBy ((keyword _).bind fun _ => choice _ fun _ _ => ?_)
  refine ite ?_ (ite ?_ (ite ?_ (ite ?_ ?_)))
  · exact (keyword _).bind fun _ => .pure (_, [])
  · exact (word _).bind fun _ => .pure _
  · exact (word _).bind fun _ => .pure _
  · exact (word _).bind fun _ => .pure _
  · exact string.bind fun _ => .pure _

theorem requirement : Uniform w w.node Grammar.requirement Grammar.requirement := by
  refine node _ ((keyword _).bind fun _ => (word _).bind fun _ => (keyword _).bind fun _ => ?_)
  exact (word _).bind fun _ => .pure _

theorem itemStatement : Uniform w w.node Grammar.itemStatement Grammar.itemStatement := by
  refine (atKeyword _).bind fun _ => ite (keywordThenString _ _) ?_
  refine (atOneOf _).bind fun _ => ite (description _) ?_
  refine (atKeyword _).bind fun _ => ite (keywordThenBoolean _ _) ?_
  refine (atKeyword _).bind fun _ => ite (keywordThenBoolean _ _) ?_
  refine (atKeyword _).bind fun _ => ite itemLocation ?_
  refine (atKeyword _).bind fun _ => ite ability ?_
  refine (atKeyword _).bind fun _ => ite (keywordThenString _ _) ?_
  refine (atKeyword _).bind fun _ => ite (containerState _) ?_
  exact (atKeyword _).bind fun _ => ite requirement consumable

theorem item : Uniform w w.node Grammar.item Grammar.item :=
  definitionOf _ _ _ (word _) itemStatement

/-! ## Npcs -/

theorem npcLocation : Uniform w w.node Grammar.npcLocation Grammar.npcLocation := by
  refine nodeBy ((keyword _).bind fun _ => (eatKeyword _).bind fun _ => ite ?_ ?_)
  · exact string.bind fun _ => .pure _
  · exact choice _ fun _ _ => (word _).bind fun _ => .pure _

/-- A node that is there. -/
theorem some {p q : Parse Node} (h : Uniform w w.node p q) :
    Uniform w (Option.map w.node) (Option.some <$> p) (Option.some <$> q) :=
  h.bind fun _ => .pure _

theorem movementOption :
    Uniform w (Option.map w.node) Grammar.movementOption Grammar.movementOption := by
  refine (atKeyword _).bind fun _ => ite (some (node _ ?_)) ?_
  · exact (keyword _).bind fun _ => (word _).one
  refine (atKeyword _).bind fun _ => ite (keywordThenBoolean _ _).some ?_
  exact (atKeyword _).bind fun _ => ite (keywordThenBoolean _ _).some (.pure none)

theorem movement : Uniform w w.node Grammar.movement Grammar.movement := by
  refine node _ ((keyword _).bind fun _ => (oneOf _).bind fun kind => (keyword _).bind fun _ => ?_)
  refine (idList _).bind fun rooms => movementOption.many.bind fun ns => .done ?_
  exact congrArg (.token (w.token kind) :: .node (w.node rooms) :: ·) (w.elements_map_node ns).symm

theorem dialogueLine :
    Uniform w (Option.map w.token) Grammar.dialogueLine Grammar.dialogueLine := by
  refine (eatMark _).bind fun _ => ite (.pure none) ?_
  exact (expect _ fun _ => rfl).bind fun _ => .pure _

theorem dialogue : Uniform w w.node Grammar.dialogue Grammar.dialogue := by
  refine node _ ((keyword _).bind fun _ => mood.bind fun state => (mark _).bind fun _ => ?_)
  refine dialogueLine.many.bind fun ts => .done ?_
  exact congrArg (.node (w.node state) :: ·) (w.elements_map_token ts).symm

theorem npcStatement : Uniform w w.node Grammar.npcStatement Grammar.npcStatement := by
  refine (atKeyword _).bind fun _ => ite (keywordThenString _ _) ?_
  refine (atOneOf _).bind fun _ => ite (description _) ?_
  refine (atKeyword _).bind fun _ => ite npcLocation ?_
  refine (atKeyword _).bind fun _ => ite (node _ ?_) ?_
  · exact (keyword _).bind fun _ => mood.oneNode
  · exact (atKeyword _).bind fun _ => ite movement dialogue

theorem npc : Uniform w w.node Grammar.npc Grammar.npc :=
  definitionOf _ _ _ (word _) npcStatement

/-! ## Spinners and goals -/

theorem wedge : Uniform w w.node Grammar.wedge Grammar.wedge := by
  refine node _ ((keyword _).bind fun _ => string.bind fun _ => (atKeyword _).bind fun _ => ?_)
  exact ite ((keywordThenNumber _ _).bind fun _ => .pure _) (.pure _)

theorem spinner : Uniform w w.node Grammar.spinner Grammar.spinner :=
  definitionOf _ _ _ (wordOrString _) wedge

theorem goalCondition : Uniform w w.node Grammar.goalCondition Grammar.goalCondition := by
  refine nodeBy (choice _ fun head _ => ?_)
  have hhead : (w.moved head).text = head.text := rfl
  simp only [hhead]
  split
  · exact choice _ fun _ _ => wordOf _ _
  · exact (keyword _).bind fun _ => wordOf _ _
  · exact (keyword _).bind fun _ => wordOf _ _
  · exact (keyword _).bind fun _ => wordOf _ _
  · refine (eatKeyword _).bind fun _ => ite ?_ ?_
    · exact (keyword _).bind fun _ => wordOf _ _
    · exact choice _ fun _ _ => wordOf _ _

theorem goalPhase : Uniform w w.node Grammar.goalPhase Grammar.goalPhase := by
  refine nodeBy (choice _ fun _ _ => (keyword _).bind fun _ => ?_)
  exact goalCondition.bind fun _ => .pure _

theorem goalStatement : Uniform w w.node Grammar.goalStatement Grammar.goalStatement := by
  refine (atKeyword _).bind fun _ => ite (keywordThenString _ _) ?_
  refine (atOneOf _).bind fun _ => ite (description _) ?_
  refine (atKeyword _).bind fun _ => ite (node _ ?_) goalPhase
  exact (keyword _).bind fun _ => (word _).one

theorem goal : Uniform w w.node Grammar.goal Grammar.goal :=
  definitionOf _ _ _ (word _) goalStatement

/-! ## Conditions -/

theorem continuesRooms (place : Grammar.Place) :
    Uniform w id (Grammar.continuesRooms place) (Grammar.continuesRooms place) := by
  cases place with
  | standalone => exact .pure true
  | grouped => exact aheadIs 1 fun _ => rfl

theorem roomList (place : Grammar.Place) :
    Uniform w w.node (Grammar.roomList place) (Grammar.roomList place) :=
  node _ ((word _).commaSeparated (continuesRooms place)).tokens

theorem hasCondition : Uniform w w.parts Grammar.hasCondition Grammar.hasCondition := by
  refine choice _ fun _ _ => ite (wordOf _ _) (ite (wordOf _ _) ?_)
  exact (keyword _).bind fun _ => wordOf _ _

theorem missingCondition : Uniform w w.parts Grammar.missingCondition Grammar.missingCondition :=
  choice _ fun _ _ => wordOf _ _

theorem flagCondition : Uniform w w.parts Grammar.flagCondition Grammar.flagCondition := by
  refine (eatKeyword _).bind fun _ => ite ?_ ?_
  · exact (keyword _).bind fun _ => wordOf _ _
  · exact choice _ fun _ _ => wordOf _ _

theorem npcCondition : Uniform w w.parts Grammar.npcCondition Grammar.npcCondition := by
  refine (eatKeyword _).bind fun _ => ite ?_ ?_
  · exact (keyword _).bind fun _ => (word _).bind fun _ => (word _).bind fun _ => .pure _
  · refine choice _ fun _ _ => (keyword _).bind fun _ => (word _).bind fun _ => ?_
    exact mood.bind fun _ => .pure _

theorem ambientCondition (place : Grammar.Place) :
    Uniform w w.parts (Grammar.ambientCondition place) (Grammar.ambientCondition place) := by
  refine (word _).bind fun _ => (aheadIs 1 fun _ => rfl).bind fun _ => ?_
  refine (atKeyword _).bind fun _ => ite ((keyword _).bind fun _ => ?_) (.pure _)
  refine (keyword _).bind fun _ => ?_
  exact (roomList place).bind fun _ => .pure _

theorem query (place : Grammar.Place) :
    Uniform w w.parts (Grammar.query place) (Grammar.query place) := by
  refine (eatKeyword _).bind fun _ => ite hasCondition ?_
  refine (eatKeyword _).bind fun _ => ite missingCondition ?_
  refine (eatKeyword _).bind fun _ => ite flagCondition ?_
  refine (eatKeyword _).bind fun _ => ite ((keyword _).bind fun _ => wordOf _ _) ?_
  refine (eatKeyword _).bind fun _ => ite npcCondition ?_
  refine (eatKeyword _).bind fun _ => ite ?_ ?_
  · exact (keyword _).bind fun _ => (keyword _).bind fun _ => wordOf _ _
  refine (eatKeyword _).bind fun _ => ite ?_ ?_
  · refine (word _).bind fun _ => (keyword _).bind fun _ => (keyword _).bind fun _ => ?_
    exact (word _).bind fun _ => .pure _
  refine (eatKeyword _).bind fun _ => ite ?_ ?_
  · exact number.bind fun _ => (mark _).bind fun _ => .pure _
  refine (eatKeyword _).bind fun _ => ite (ambientCondition place) ?_
  refine (eatKeyword _).bind fun _ => ite ?_ (unexpected _)
  exact (keyword _).bind fun _ => (roomList place).bind fun _ => .pure _

theorem conditionOver {member member' : Parse Node} (h : Uniform w w.node member member')
    (place : Grammar.Place) :
    Uniform w w.node (Grammar.conditionOver member place)
      (Grammar.conditionOver member' place) := by
  refine nodeBy ((atOneOf _).bind fun _ => ite ?_ (query place))
  refine choice _ fun _ _ => h.parenthesized.bind fun ns => .done ?_
  exact congrArg (Prod.mk _) (w.elements_map_node ns).symm

theorem tooDeep {α : Type} {d : α → α} :
    Uniform w d (Grammar.tooDeep : Parse α) Grammar.tooDeep :=
  failHere .nestingTooDeep

theorem condition (levels : Nat) (place : Grammar.Place) :
    Uniform w w.node (Grammar.condition levels place) (Grammar.condition levels place) := by
  induction levels generalizing place with
  | zero => exact conditionOver Uniform.tooDeep place
  | succ levels ih => exact conditionOver (ih .grouped) place

/-! ## Events -/

theorem takeEvent : Uniform w w.parts Grammar.takeEvent Grammar.takeEvent := by
  refine (keyword _).bind fun _ => (word _).bind fun _ => (eatKeyword _).bind fun _ => ?_
  exact ite ((keyword _).bind fun _ => (word _).bind fun _ => .pure _) (.pure _)

theorem useEvent : Uniform w w.parts Grammar.useEvent Grammar.useEvent := by
  refine (keyword _).bind fun _ => (word _).bind fun _ => (eatKeyword _).bind fun _ => ite ?_ ?_
  · refine (keyword _).bind fun _ => (word _).bind fun _ => (keyword _).bind fun _ => ?_
    exact (word _).bind fun _ => .pure _
  · exact (eatKeyword _).bind fun _ => ite ((word _).bind fun _ => .pure _) (.pure _)

theorem event : Uniform w w.node Grammar.event Grammar.event := by
  refine nodeBy (choice _ fun head hsame => ?_)
  have hhead : (w.moved head).text = head.text := rfl
  simp only [hhead]
  split
  case h_1 => exact .pure (_, [])
  case h_4 => exact takeEvent
  case h_8 | h_9 => exact (keyword _).bind fun _ => (keyword _).bind fun _ => wordOf _ _
  case h_10 => exact useEvent
  case h_11 =>
    refine (word _).bind fun _ => (keyword _).bind fun _ => (keyword _).bind fun _ => ?_
    exact (word _).bind fun _ => .pure _
  case h_12 | h_13 =>
    refine (keyword _).bind fun _ => (word _).bind fun _ => (keyword _).bind fun _ => ?_
    exact (keyword _).bind fun _ => (word _).bind fun _ => .pure _
  case h_14 =>
    refine (keyword _).bind fun _ => (word _).bind fun item => ?_
    rw [← hsame]
    exact .pure (Rule.evIngest, [Element.token head, Element.token item])
  all_goals exact (keyword _).bind fun _ => wordOf _ _

/-! ## Effects -/

theorem addAction : Uniform w w.parts Grammar.addAction Grammar.addAction := by
  refine (eatKeyword _).bind fun _ => ite (wordOf _ _) ((eatKeyword _).bind fun _ => ite ?_ ?_)
  · refine (keyword _).bind fun _ => (word _).bind fun _ => (atKeyword _).bind fun _ => ?_
    exact ite ((keywordThenNumber _ _).bind fun _ => .pure _) (.pure _)
  refine (eatKeyword _).bind fun _ => ite ?_ (unexpected _)
  refine string.bind fun text => (optional _ (keywordThenNumber _ _)).bind fun width => ?_
  refine (keyword _).bind fun _ => (word _).bind fun spinner => .done ?_
  exact congrArg (fun cs => (Rule.actAddWedge, Element.token (w.token text) :: cs))
    (w.elements_append width [.token spinner]).symm

theorem flagAction (r : Rule) : Uniform w w.parts (Grammar.flagAction r) (Grammar.flagAction r) :=
  (keyword _).bind fun _ => wordOf _ _

theorem replaceAction : Uniform w w.parts Grammar.replaceAction Grammar.replaceAction := by
  refine (eatKeyword _).bind fun _ => (keyword _).bind fun _ => (word _).bind fun _ => ?_
  exact (keyword _).bind fun _ => (word _).bind fun _ => .pure _

theorem spawnAction : Uniform w w.parts Grammar.spawnAction Grammar.spawnAction := by
  refine (eatKeyword _).bind fun _ => ite ?_ (choice _ fun _ _ => (word _).bind fun _ => ?_)
  · refine (word _).bind fun _ => (keyword _).bind fun _ => (keyword _).bind fun _ => ?_
    exact (word _).bind fun _ => .pure _
  refine (eatKeyword _).bind fun _ => ite ?_ ((eatKeyword _).bind fun _ => ite ?_ (unexpected _))
  · exact choice _ fun _ _ => (word _).bind fun _ => .pure _
  · refine choice _ fun _ _ => ite ?_ (ite (.pure _) ?_)
    · exact (word _).bind fun _ => .pure _
    · exact (keyword _).bind fun _ => .pure _

theorem despawnAction : Uniform w w.parts Grammar.despawnAction Grammar.despawnAction :=
  choice _ fun _ _ => wordOf _ _

theorem awardAction : Uniform w w.parts Grammar.awardAction Grammar.awardAction := by
  refine (keyword _).bind fun _ => number.bind fun _ => (atKeyword _).bind fun _ => ?_
  exact ite ((keywordThenString _ _).bind fun _ => .pure _) (.pure _)

theorem lockAction (itemRule exitRule : Rule) :
    Uniform w w.parts (Grammar.lockAction itemRule exitRule)
      (Grammar.lockAction itemRule exitRule) := by
  refine choice _ fun _ _ => ite (wordOf _ _) ((keyword _).bind fun _ => ?_)
  refine (word _).bind fun _ => (keyword _).bind fun _ => ?_
  exact (wordOrString _).bind fun _ => .pure _

theorem revealAction : Uniform w w.parts Grammar.revealAction Grammar.revealAction := by
  refine (keyword _).bind fun _ => (keyword _).bind fun _ => (word _).bind fun _ => ?_
  refine (keyword _).bind fun _ => (word _).bind fun _ => (keyword _).bind fun _ => ?_
  exact (wordOrString _).bind fun _ => .pure _

theorem pushAction : Uniform w w.parts Grammar.pushAction Grammar.pushAction :=
  (keyword _).bind fun _ => (keyword _).bind fun _ => wordOf _ _

theorem setNpcAction : Uniform w w.parts Grammar.setNpcAction Grammar.setNpcAction := by
  refine choice _ fun _ _ => (word _).bind fun _ => ite ?_ ?_
  · exact boolean.bind fun _ => .pure _
  · exact mood.bind fun _ => .pure _

theorem setAction : Uniform w w.parts Grammar.setAction Grammar.setAction := by
  refine choice _ fun _ _ => ite ?_ (ite setNpcAction (ite ?_ ?_))
  · exact (keyword _).bind fun _ => (word _).bind fun _ => string.bind fun _ => .pure _
  · refine (keyword _).bind fun _ => (keyword _).bind fun _ => (word _).bind fun _ => ?_
    exact (keyword _).bind fun _ => (word _).bind fun _ => string.bind fun _ => .pure _
  · exact (keyword _).bind fun _ => (word _).bind fun _ => (word _).bind fun _ => .pure _

theorem npcAction : Uniform w w.parts Grammar.npcAction Grammar.npcAction := by
  refine choice _ fun _ _ => ite ?_ (ite ?_ ?_)
  · exact (word _).bind fun _ => string.bind fun _ => .pure _
  · exact (keyword _).bind fun _ => wordOf _ _
  · exact (keyword _).bind fun _ => (word _).bind fun _ => string.bind fun _ => .pure _

theorem giveAction : Uniform w w.parts Grammar.giveAction Grammar.giveAction := by
  refine (keyword _).bind fun _ => (word _).bind fun _ => (keyword _).bind fun _ => ?_
  refine (keyword _).bind fun _ => (keyword _).bind fun _ => (keyword _).bind fun _ => ?_
  exact (word _).bind fun _ => .pure _

theorem patchStatement : Uniform w w.node Grammar.patchStatement Grammar.patchStatement := by
  refine (atKeyword _).bind fun _ => ite (keywordThenString _ _) ?_
  refine (atOneOf _).bind fun _ => ite (description _) ?_
  refine (atKeyword _).bind fun _ => ite (keywordThenString _ _) ?_
  refine (atKeyword _).bind fun _ => ite (keywordThenBoolean _ _) ?_
  refine (atKeyword _).bind fun _ => ite (keywordThenBoolean _ _) ?_
  refine (atKeyword _).bind fun _ => ite (containerState _) (nodeBy ?_)
  exact choice _ fun _ _ => ability.bind fun _ => .pure _

theorem modifyAction : Uniform w w.parts Grammar.modifyAction Grammar.modifyAction := by
  refine (keyword _).bind fun _ => (word _).bind fun item => ?_
  exact (blockOf _ patchStatement).subjectAndNodes _ item

/-! ## Actions -/

theorem onFalse : Uniform w w.node Grammar.onFalse Grammar.onFalse := by
  refine nodeBy ((keyword _).bind fun _ => choice _ fun _ _ => ite (.pure (_, [])) ?_)
  exact ite (.pure (_, [])) (number.bind fun _ => .pure _)

variable {guard guard' body body' : Parse Node}

theorem scheduleGuard (hg : Uniform w w.node guard guard') :
    Uniform w w.parts (Grammar.scheduleGuard guard) (Grammar.scheduleGuard guard') := by
  refine (eatKeyword _).bind fun _ => ite ?_ (.pure (_, []))
  exact hg.bind fun _ => (optional _ onFalse).bind fun _ => .pure _

theorem scheduleAction (hg : Uniform w w.node guard guard') (hb : Uniform w w.node body body') :
    Uniform w w.parts (Grammar.scheduleAction guard body)
      (Grammar.scheduleAction guard' body') := by
  refine (oneOf _).bind fun anchor => number.bind fun turns => hg.scheduleGuard.bind fun parts => ?_
  refine (optional _ (keywordThenString _ _)).bind fun notes => hb.bind fun n => .done ?_
  have happend := w.elements_append (parts.2 ++ notes) [.node n]
  rw [w.elements_append parts.2 notes] at happend
  exact congrArg
    (fun cs => (parts.1, Element.token (w.token anchor) :: .token (w.token turns) :: cs))
    happend.symm

theorem actionOver (hg : Uniform w w.node guard guard') (hb : Uniform w w.node body body') :
    Uniform w w.node (Grammar.actionOver guard body) (Grammar.actionOver guard' body') := by
  refine nodeBy (choice _ fun head _ => ?_)
  have hhead : (w.moved head).text = head.text := rfl
  simp only [hhead]
  split
  case h_1 => exact string.bind fun _ => .pure _
  case h_2 => exact addAction
  case h_3 | h_4 | h_5 => exact flagAction _
  case h_6 => exact replaceAction
  case h_7 => exact spawnAction
  case h_8 => exact despawnAction
  case h_9 => exact awardAction
  case h_10 | h_11 => exact lockAction _ _
  case h_12 => exact revealAction
  case h_13 => exact pushAction
  case h_14 => exact setAction
  case h_15 => exact npcAction
  case h_16 => exact (keyword _).bind fun _ => string.bind fun _ => .pure _
  case h_17 | h_19 => exact (keyword _).bind fun _ => wordOf _ _
  case h_18 => exact giveAction
  case h_20 => exact modifyAction
  case h_21 => exact hg.scheduleAction hb

/-! ## Statements -/

variable {cond cond' act act' : Parse Node}

theorem deed (ha : Uniform w w.node act act') :
    Uniform w w.node (Grammar.deed act) (Grammar.deed act') :=
  node _ ((keyword _).bind fun _ => ha.oneNode)

theorem branch (hc : Uniform w w.node cond cond') (ha : Uniform w w.node act act') :
    Uniform w w.node (Grammar.branch cond act) (Grammar.branch cond' act') := by
  refine node _ ((keyword _).bind fun _ => hc.bind fun n => (block _ ?_).bind fun ns => .done ?_)
  · refine (atKeyword _).bind fun _ => ite ha.deed ?_
    refine (atKeyword _).bind fun _ => ite ?_ (unexpected _)
    exact failHere fun _ => .nestedConditional
  · exact congrArg (.node (w.node n) :: ·) (w.elements_map_node ns).symm

theorem statements (hc : Uniform w w.node cond cond') (ha : Uniform w w.node act act') :
    Uniform w w.node (Grammar.statements cond act) (Grammar.statements cond' act') :=
  node _ (blockOf _ ((atKeyword _).bind fun _ => ite ha.deed (hc.branch ha))).nodes

theorem action (levels : Nat) :
    Uniform w w.node (Grammar.action levels) (Grammar.action levels) := by
  induction levels with
  | zero => exact (condition 0 .standalone).actionOver Uniform.tooDeep
  | succ levels ih =>
      exact (condition (levels + 1) .standalone).actionOver
        ((condition levels .standalone).statements ih)

/-! ## Triggers -/

theorem triggerModifier :
    Uniform w (Option.map w.node) Grammar.triggerModifier Grammar.triggerModifier := by
  refine (atKeyword _).bind fun _ => ite (some (node _ ((keyword _).bind fun _ => .pure []))) ?_
  exact (atKeyword _).bind fun _ => ite (keywordThenString _ _).some (.pure none)

theorem trigger (levels : Nat) :
    Uniform w w.node (Grammar.trigger levels) (Grammar.trigger levels) := by
  let body := Grammar.statements (Grammar.condition levels .standalone) (Grammar.action levels)
  have hend (name : Token) (ns : List Node) : Uniform w w.elements
      (do
        let event ← Grammar.event
        let body ← body
        return .token name :: ns.map .node ++ [.node event, .node body])
      (do
        let event ← Grammar.event
        let body ← body
        return .token (w.token name) :: (ns.map w.node).map .node ++
          [.node event, .node body]) := by
    refine event.bind fun e => ((condition _ _).statements (action _)).bind fun b => .done ?_
    have happend := w.elements_append (ns.map .node) [.node e, .node b]
    rw [w.elements_map_node] at happend
    exact congrArg (Element.token (w.token name) :: ·) happend.symm
  refine node _ ((keyword _).bind fun _ => string.bind fun name => ?_)
  refine triggerModifier.many.bind fun ns => ?_
  refine (eatKeyword _).bind fun _ => ite ?_ (hend name ns)
  exact (unexpected (e := id) _).bind fun _ => hend name ns

/-! ## Definitions -/

theorem definition : Uniform w w.node Grammar.definition Grammar.definition := by
  refine (atKeyword _).bind fun _ => ite roomSet ((atKeyword _).bind fun _ => ite room ?_)
  refine (atKeyword _).bind fun _ => ite item ((atKeyword _).bind fun _ => ite npc ?_)
  refine (atKeyword _).bind fun _ => ite (within trigger) ?_
  refine (atKeyword _).bind fun _ => ite spinner ?_
  exact (atKeyword _).bind fun _ => ite goal (unexpected _)

end Storyworld.Grammar.Uniform
