import Storyworld.Proofs.Grammar.OffersRoom
import Storyworld.Proofs.Grammar.Triggers

namespace Storyworld.Grammar

/-! What the parsers of definitions other than rooms offer, they take; those of triggers do
whatever the levels allowed. -/

variable {α : Type} {c : Context} {s s' : State} {m : Repair} {X : Prop} {tk : Bool} {p q : Parse α}
  {A B : Token → Bool} {place : Place} {guard body member act cond : Parse Node}

/-! ## Items -/

namespace Opening

theorem whenConsumed : Opening m (·.isKeyword "when_consumed") X Grammar.whenConsumed := by
  refine .node (.bind (.keyword rfl) fun _ => .clause (.pure _) (.bind (.keyword rfl) fun _ => ?_))
  refine .clause (.map (.word rfl)) (.clause (.bind (.keyword rfl) fun _ => .map (.word rfl))
    (.unexpectedOf rfl ?_))
  simp [Token.isOneOf]

theorem consumableStatement :
    Opening m (·.isOneOf ["uses_left", "consume_on", "when_consumed"]) True
      Grammar.consumableStatement := by
  refine .accept (.told (.keywordThenNumber rfl) (.told (.behind rfl (.map .ability))
    .whenConsumed)) fun t ht => ?_
  simpa [Token.isOneOf] using ht

theorem consumable : Opening m (·.isKeyword "consumable") X Grammar.consumable :=
  .behind rfl (.map (Opening.blockOf rfl .consumableStatement).candid)

theorem itemLocation : Opening m (·.isKeyword "location") X Grammar.itemLocation := by
  refine .node (.bind (.keyword rfl) fun _ => .bind (.oneOf rfl) fun kind => ?_)
  refine .ite (fun _ => .bind (.keyword rfl) fun _ => .pure _) fun _ => ?_
  refine .ite (fun _ => .map (.word rfl)) fun _ => .ite (fun _ => .map (.word rfl)) fun _ => ?_
  exact .ite (fun _ => .map (.word rfl)) fun _ => .map .string

theorem requirement : Opening m (·.isKeyword "requires") X Grammar.requirement :=
  .behind rfl (.bind (.word rfl) fun _ => .bind (.keyword rfl) fun _ => .bind (.word rfl) fun _ =>
    .pure _)

theorem itemStatement : Opening m (·.isOneOf itemStarters) True Grammar.itemStatement := by
  refine .accept (.told (.keywordThenString rfl) (.told .description
    (.told (.keywordThenBoolean rfl) (.told (.keywordThenBoolean rfl) (.told .itemLocation
      (.told .ability (.told (.keywordThenString rfl) (.told .containerState
        (.told .requirement .consumable))))))))) fun t ht => ?_
  simpa [Token.isOneOf, itemStarters, or_assoc] using ht

theorem item : Opening m (·.isKeyword "item") X Grammar.item :=
  .behind rfl (.bind (.word rfl) fun _ => .map (Opening.blockOf rfl .itemStatement).candid)

/-! ## Npcs -/

theorem npcLocation : Opening m (·.isKeyword "location") X Grammar.npcLocation := by
  refine .node (.bind (.keyword rfl) fun _ => .clause (.map .string) ?_)
  exact .bind (.oneOf rfl) fun _ => .map (.word rfl)

theorem movement : Opening m (·.isKeyword "movement") X Grammar.movement := by
  have hoption : Candid m false False movementOption :=
    .told (.map (.behind rfl (.map (.word rfl)))) (.told (.map (.keywordThenBoolean rfl))
      (.told (.map (.keywordThenBoolean rfl)) (.pure none)))
  refine .behind rfl (.bind (.oneOf rfl) fun kind => .bind (.keyword rfl) fun _ =>
    .bind (.idList rfl) fun rooms => ?_)
  exact .map (.many hoption Composed.movementOption_productive)

/-- The end of a dialogue is offered beside its lines, and taken before them. -/
theorem dialogue : Opening m (·.isKeyword "dialogue") X Grammar.dialogue := by
  have hline : Candid m false False dialogueLine := by
    refine .clause (.pure none) (.map (.take fun e he hadmits => ?_))
    rcases List.mem_cons.mp he with rfl | he
    · exact .inl hadmits
    · rw [List.mem_singleton.mp he] at hadmits
      exact .inr (.inr hadmits)
  refine .behind rfl (.bind .mood fun state => .bind .mark fun _ => ?_)
  exact .map (.many hline dialogueLine_productive)

theorem npcStatement : Opening m (·.isOneOf npcStarters) True Grammar.npcStatement := by
  refine .accept (.told (.keywordThenString rfl) (.told .description (.told .npcLocation
    (.told (.behind rfl (.map .mood)) (.told .movement .dialogue))))) fun t ht => ?_
  simpa [Token.isOneOf, npcStarters, or_assoc] using ht

theorem npc : Opening m (·.isKeyword "npc") X Grammar.npc :=
  .behind rfl (.bind (.word rfl) fun _ => .map (Opening.blockOf rfl .npcStatement).candid)

/-! ## Goals -/

theorem goalCondition :
    Opening m (·.isOneOf ["has", "missing", "reached", "goal", "flag"]) X
      Grammar.goalCondition := by
  have hid (rule : Rule) : Candid m false False (do
      let rule ← pure rule
      return (rule, [Element.token (← Grammar.word "id")])) :=
    .bind (.pure rule) fun rule => .map (.word rfl)
  refine .node (.bind (.oneOf rfl) fun head => ?_)
  dsimp only
  split
  case h_1 => exact .bind (.oneOf rfl) fun what => hid _
  case h_5 =>
    exact .clause (.bind (.keyword rfl) fun _ => hid _) (.bind (.oneOf rfl) fun _ =>
      hid _)
  all_goals exact .bind (.keyword rfl) fun _ => hid _

theorem goalPhase : Opening m (·.isOneOf ["start", "done", "fail"]) X Grammar.goalPhase :=
  .node (.bind (.oneOf rfl) fun _ => .bind (.keyword rfl) fun _ =>
    .map Opening.goalCondition.candid)

theorem goalStatement : Opening m (·.isOneOf goalStarters) True Grammar.goalStatement := by
  refine .accept (.told (.keywordThenString rfl) (.told .description (.told (.behind rfl (.map
    (.word rfl)))
    .goalPhase))) fun t ht => ?_
  simpa [Token.isOneOf, goalStarters, or_assoc] using ht

theorem goal : Opening m (·.isKeyword "goal") X Grammar.goal :=
  .behind rfl (.bind (.word rfl) fun _ => .map (Opening.blockOf rfl .goalStatement).candid)

/-! ## Spinners -/

theorem wedge : Opening m (·.isKeyword "wedge") X Grammar.wedge :=
  .behind rfl (.bind .string fun _ => .told (.map (.keywordThenNumber rfl)) (.pure _))

theorem spinner : Opening m (·.isKeyword "spinner") X Grammar.spinner := by
  have hwedges : Opening m (·.isMark .openBrace) False (Grammar.blockOf ["wedge"] Grammar.wedge) :=
    .blockOf rfl (.accept .wedge fun t ht => by simpa [Token.isOneOf] using ht)
  exact .behind rfl (.bind (.label rfl) fun id => .map hwedges.candid)

end Opening

/-! ## Conditions -/

/-- The first of two tokens told together is taken before the parser that goes on with the other. -/
theorem pair_eq (A B : Token → Bool) (p q : Parse α) : (do if ← eatWhen (pair A B) then p else q) =
    (do if ← looking (pair A B) then (do let _ ← expect [] A; p) else q) := by
  funext c s
  rw [run_bind, run_eatWhen, run_bind, run_looking]
  cases h : pair A B s.rest with
  | true =>
      obtain ⟨t, u, rest, hr, ht, -⟩ := pair_iff.mp h
      simp [run_bind, expect_of_cons hr ht]
  | false => rfl

/-- A parser told by the next two tokens, the first of which is taken before it, or another one. -/
theorem Candid.pairClause (hp : Opening m B False p) (hq : Candid m tk X q) :
    Candid m tk X (do if ← eatWhen (pair A B) then p else q) := by
  rw [pair_eq]
  refine .toldByPair (.bind (.take (by simp)) fun _ => hp.candid)
    (.pair (fun c s hs => ?_) fun _ => hp.begins) hq
  obtain ⟨t, rest, hr, ht⟩ := next_iff.mp hs
  exact ⟨t, expect_of_cons hr ht⟩

namespace Candid

theorem roomList : Candid m tk False (Grammar.roomList place) := by
  refine .node (.map (.map ?_))
  cases place with
  | standalone => exact .commaSeparatedAll (.word rfl)
  | grouped =>
      have hroom : Opening m (fun t => t.isWord && !t.isOneOf conditionStarters) False
          (some <$> Grammar.word "room id") :=
        .accept (.map (.word rfl)) fun t ht => (Bool.and_eq_true_iff.mp ht).1
      rw [continuesRooms_grouped]
      refine .commaSeparated (.word rfl) ?_
      rw [commaStep_eq]
      exact .pairClause hroom (.pure none)

theorem ambientCondition : Candid m tk False (Grammar.ambientCondition place) := by
  have hrooms (spinner : Token) : Opening m (·.isKeyword "rooms") False (do
      Grammar.keyword "rooms"
      let rooms ← Grammar.roomList place
      return (Rule.condAmbient, [Element.token spinner, Element.node rooms])) :=
    .bind (.keyword rfl) fun _ => .map .roomList
  rw [ambientCondition_eq]
  refine .andThen (.word rfl) fun spinner => .toldByPair (.bind (.keyword rfl) fun _ =>
    (hrooms spinner).candid)
    (.pair (fun c s hs => ⟨(), run_keyword hs⟩) fun _ => (hrooms spinner).begins) (.pure _)

theorem query : Candid m true (X ∨ m.token.isOneOf ["any", "all"]) (Grammar.query place) := by
  refine .clause ?has (.clause ?missing (.clause ?flag (.clause ?withNpc (.clause ?npc
    (.clause ?player (.clause ?container (.clause ?chance (.clause ?ambient (.clause ?rooms
      (.unexpectedOf rfl ?_))))))))))
  case has =>
    refine .bind (.oneOf rfl) fun what => .ite (fun _ => .map (.word rfl)) fun _ => ?_
    exact .ite (fun _ => .map (.word rfl)) fun _ => .bind (.keyword rfl) fun _ => .map (.word rfl)
  case missing => exact .bind (.oneOf rfl) fun what => .map (.word rfl)
  case flag =>
    exact .clause (.bind (.keyword rfl) fun _ => .map (.word rfl))
      (.bind (.oneOf rfl) fun _ => .map (.word rfl))
  case withNpc => exact .bind (.keyword rfl) fun _ => .map (.word rfl)
  case npc =>
    refine .clause ?_ ?_
    · exact .bind (.keyword rfl) fun _ => .bind (.word rfl) fun npc =>
        .bind (.word rfl) fun item => .pure _
    · refine .bind (.oneOf rfl) fun _ => .bind (.keyword rfl) fun _ =>
        .bind (.word rfl) fun npc => ?_
      exact .bind .mood fun state => .pure _
  case player => exact .bind (.keyword rfl) fun _ => .bind (.keyword rfl) fun _ => .map (.word rfl)
  case container =>
    refine .bind (.word rfl) fun container => .bind (.keyword rfl) fun _ =>
      .bind (.keyword rfl) fun _ => ?_
    exact .bind (.word rfl) fun item => .pure _
  case chance => exact .bind .number fun percent => .bind .mark fun _ => .pure _
  case ambient => exact .ambientCondition
  case rooms => exact .bind (.keyword rfl) fun _ => .map .roomList
  · simp [Token.isOneOf, conditionStarters]
    grind

theorem conditionOver (hm : Candid m true False member) :
    Candid m tk False (Grammar.conditionOver member place) := by
  have hgroup : Opening m (·.isOneOf ["any", "all"]) True (do
      let group ← Grammar.oneOf ["any", "all"]
      let members ← Grammar.parenthesized member
      let rule := if group.text = "any" then Rule.condAny else .condAll
      return (rule, members.map Element.node)) :=
    .bind (.oneOf rfl) fun group => .map (Opening.parenthesized hm).candid
  exact .node (.told hgroup .query)

theorem tooDeep : Candid m tk False (Grammar.tooDeep : Parse α) :=
  .failHere .nestingTooDeep fun _ => rfl

theorem condition (levels : Nat) (place : Place) :
    Candid m tk False (Grammar.condition levels place) := by
  induction levels generalizing tk place with
  | zero => exact .conditionOver .tooDeep
  | succ levels ih => exact .conditionOver (ih .grouped)

/-! ## Events -/

theorem takeEvent : Candid m false False Grammar.takeEvent := by
  refine .bind (.keyword rfl) fun _ => .bind (.word rfl) fun item => .clause ?_ (.pure _)
  exact .bind (.keyword rfl) fun _ => .bind (.word rfl) fun npc => .pure _

theorem useEvent : Candid m false False Grammar.useEvent := by
  refine .bind (.keyword rfl) fun _ => .bind (.word rfl) fun item => .clause ?_ (.clause (.map
    (.word rfl)) (.pure _))
  refine .bind (.keyword rfl) fun _ => .bind (.word rfl) fun target =>
    .bind (.keyword rfl) fun _ => ?_
  exact .bind (.word rfl) fun interaction => .pure _

theorem event : Candid m tk False Grammar.event := by
  have hword {w what : String} {r : Rule} (hw : Token.isReserved w)
      (hwhat : Expectation.wordless.contains what = false) : Candid m false False (do
        Grammar.keyword w
        return (r, [Element.token (← Grammar.word what)])) :=
    .bind (.keyword hw) fun _ => .map (.word hwhat)
  refine .node (.andThen (.oneOf rfl) fun head => ?_)
  split
  case h_1 => exact .pure _
  case h_4 => exact .takeEvent
  case h_8 | h_9 =>
    exact .bind (.keyword rfl) fun _ => .bind (.keyword rfl) fun _ =>
      .map (.word rfl)
  case h_10 => exact .useEvent
  case h_11 =>
    refine .bind (.word rfl) fun interaction => .bind (.keyword rfl) fun _ =>
      .bind (.keyword rfl) fun _ => ?_
    exact .bind (.word rfl) fun item => .pure _
  case h_12 | h_13 =>
    refine .bind (.keyword rfl) fun _ => .bind (.word rfl) fun item =>
      .bind (.keyword rfl) fun _ => ?_
    exact .bind (.keyword rfl) fun _ => .bind (.word rfl) fun npc => .pure _
  case h_14 => exact .bind (.keyword rfl) fun _ => .bind (.word rfl) fun item => .pure _
  all_goals exact hword rfl rfl

/-! ## Actions -/

theorem addAction : Candid m false False Grammar.addAction := by
  refine .clause (.map (.word rfl)) (.clause ?seq (.clause ?wedge (.unexpectedOf rfl ?_)))
  case seq =>
    refine .bind (.keyword rfl) fun _ => .bind (.word rfl) fun flag => ?_
    exact .told (.map (.keywordThenNumber rfl)) (.pure _)
  case wedge =>
    refine .bind .string fun text => .bind (.optional (.keywordThenNumber rfl)) fun width => ?_
    exact .bind (.keyword rfl) fun _ => .bind (.word rfl) fun spinner => .pure _
  · simp [Token.isOneOf, or_assoc]

theorem flagAction {r : Rule} : Candid m false False (Grammar.flagAction r) :=
  .bind (.keyword rfl) fun _ => .map (.word rfl)

theorem replaceAction : Candid m false False Grammar.replaceAction := by
  refine .bind .eatKeyword fun drop => .bind (.keyword rfl) fun _ => .bind (.word rfl) fun old => ?_
  exact .bind (.keyword rfl) fun _ => .bind (.word rfl) fun new => .pure _

theorem spawnAction : Candid m false False Grammar.spawnAction := by
  refine .clause ?npc (.bind (.oneOf rfl) fun _ => .bind (.word rfl) fun item => .clause ?into
    (.clause ?inside (.unexpectedOf rfl ?_)))
  case npc =>
    refine .bind (.word rfl) fun npc => .bind (.keyword rfl) fun _ =>
      .bind (.keyword rfl) fun _ => ?_
    exact .bind (.word rfl) fun room => .pure _
  case into => exact .bind (.oneOf rfl) fun target => .bind (.word rfl) fun id => .pure _
  case inside =>
    refine .bind (.oneOf rfl) fun target => .ite (fun _ => ?_) fun _ => ?_
    · exact .bind (.word rfl) fun container => .pure _
    · exact .ite (fun _ => .pure _) fun _ => .bind (.keyword rfl) fun _ => .pure _
  · simp [Token.isOneOf]

theorem despawnAction : Candid m false False Grammar.despawnAction :=
  .bind (.oneOf rfl) fun _ => .map (.word rfl)

theorem awardAction : Candid m false False Grammar.awardAction :=
  .bind (.keyword rfl) fun _ => .bind .number fun _ => .told (.map (.keywordThenString rfl))
    (.pure _)

theorem lockAction {r r' : Rule} : Candid m false False (Grammar.lockAction r r') := by
  refine .bind (.oneOf rfl) fun what => .ite (fun _ => .map (.word rfl)) fun _ =>
    .bind (.keyword rfl) fun _ => ?_
  exact .bind (.word rfl) fun room => .bind (.keyword rfl) fun _ =>
    .bind (.label rfl) fun direction => .pure _

theorem revealAction : Candid m false False Grammar.revealAction := by
  refine .bind (.keyword rfl) fun _ => .bind (.keyword rfl) fun _ =>
    .bind (.word rfl) fun origin => ?_
  refine .bind (.keyword rfl) fun _ => .bind (.word rfl) fun target =>
    .bind (.keyword rfl) fun _ => ?_
  exact .bind (.label rfl) fun direction => .pure _

theorem pushAction : Candid m false False Grammar.pushAction :=
  .bind (.keyword rfl) fun _ => .bind (.keyword rfl) fun _ => .map (.word rfl)

theorem setNpcAction : Candid m false False Grammar.setNpcAction := by
  refine .bind (.oneOf rfl) fun field => .bind (.word rfl) fun npc => .ite (fun _ => ?_) fun _ => ?_
  · exact .bind .boolean fun active => .pure _
  · exact .bind .mood fun state => .pure _

theorem setAction : Candid m false False Grammar.setAction := by
  refine .bind (.oneOf rfl) fun what => .ite (fun _ => ?_) fun _ =>
    .ite (fun _ => .setNpcAction) fun _ => .ite (fun _ => ?_) fun _ => ?_
  · exact .bind (.keyword rfl) fun _ => .bind (.word rfl) fun item => .bind .string fun text =>
      .pure _
  · refine .bind (.keyword rfl) fun _ => .bind (.keyword rfl) fun _ =>
      .bind (.word rfl) fun origin => ?_
    exact .bind (.keyword rfl) fun _ => .bind (.word rfl) fun target =>
      .bind .string fun message => .pure _
  · exact .bind (.keyword rfl) fun _ => .bind (.word rfl) fun item =>
      .bind (.word rfl) fun state => .pure _

theorem npcAction : Candid m false False Grammar.npcAction := by
  refine .bind (.oneOf rfl) fun what => .ite (fun _ => ?_) fun _ => .ite (fun _ => ?_) fun _ => ?_
  · exact .bind (.word rfl) fun npc => .bind .string fun quote => .pure _
  · exact .bind (.keyword rfl) fun _ => .map (.word rfl)
  · exact .bind (.keyword rfl) fun _ => .bind (.word rfl) fun npc => .bind .string fun reason =>
      .pure _

theorem giveAction : Candid m false False Grammar.giveAction := by
  refine .bind (.keyword rfl) fun _ => .bind (.word rfl) fun item =>
    .bind (.keyword rfl) fun _ => ?_
  refine .bind (.keyword rfl) fun _ => .bind (.keyword rfl) fun _ =>
    .bind (.keyword rfl) fun _ => ?_
  exact .bind (.word rfl) fun npc => .pure _

end Candid

theorem Opening.patchStatement :
    Opening m (·.isOneOf patchStarters) True Grammar.patchStatement := by
  have hability {X : Prop} : Opening m (·.isOneOf ["add", "remove"]) X (nodeBy do
      let which ← Grammar.oneOf ["add", "remove"]
      let rule := if which.text = "remove" then Rule.patchRemoveAbility else .patchAddAbility
      return (rule, [.node (← Grammar.ability)])) :=
    .node (.bind (.oneOf rfl) fun which => .map .ability)
  refine .accept (.told (.keywordThenString rfl) (.told .description (.told (.keywordThenString rfl)
    (.told (.keywordThenBoolean rfl) (.told (.keywordThenBoolean rfl)
      (.told .containerState hability))))))
    fun t ht => ?_
  simpa [Token.isOneOf, patchStarters, or_assoc] using ht

namespace Candid

theorem modifyAction : Candid m false False Grammar.modifyAction := by
  refine .bind (.keyword rfl) fun _ => .bind (.word rfl) fun item => .map ?_
  exact (Opening.blockOf rfl .patchStatement).candid

theorem scheduleAction (hg : Candid m true False guard) (hb : Candid m true False body) :
    Candid m false False (Grammar.scheduleAction guard body) := by
  have honFalse : Opening m (·.isKeyword "onFalse") True onFalse := by
    refine .node (.bind (.keyword rfl) fun _ => .bind (.oneOf rfl) fun policy => ?_)
    exact .ite (fun _ => .pure _) fun _ => .ite (fun _ => .pure _) fun _ => .map .number
  have hguard : Candid m false False (scheduleGuard guard) := by
    refine .clause (.bind (hg.weaken (by simp)) fun condition => ?_) (.pure _)
    exact .bind (.optional honFalse) fun retry => .pure _
  refine .bind (.oneOf rfl) fun anchor => .bind .number fun turns => .bind hguard fun guards => ?_
  refine .bind (.optional (.keywordThenString rfl)) fun notes => ?_
  exact .bind (hb.weaken (by simp)) fun statements => .pure _

theorem actionOver (hg : Candid m true False guard) (hb : Candid m true False body) :
    Candid m tk False (Grammar.actionOver guard body) := by
  refine .node (.andThen (.oneOf rfl) fun head => ?_)
  split
  case h_1 => exact .map .string
  case h_2 => exact .addAction
  case h_3 | h_4 | h_5 => exact .flagAction
  case h_6 => exact .replaceAction
  case h_7 => exact .spawnAction
  case h_8 => exact .despawnAction
  case h_9 => exact .awardAction
  case h_10 | h_11 => exact .lockAction
  case h_12 => exact .revealAction
  case h_13 => exact .pushAction
  case h_14 => exact .setAction
  case h_15 => exact .npcAction
  case h_16 => exact .bind (.keyword rfl) fun _ => .map .string
  case h_17 | h_19 => exact .bind (.keyword rfl) fun _ => .map (.word rfl)
  case h_18 => exact .giveAction
  case h_20 => exact .modifyAction
  case h_21 => exact .scheduleAction hg hb

end Candid

/-! ## Statements -/

/-- In a conditional block, another condition is refused with a fault of its own. -/
theorem Candid.refused : Candid m true (m.token.isMark .closeBrace ∨ m.token.isKeyword "do") (do
    if ← Grammar.atKeyword "if" then throw ⟨.nestedConditional, ← here⟩
    else Grammar.unexpected ["do", "\x7d"] : Parse α) := by
  have heq : (do
      if ← Grammar.atKeyword "if" then throw ⟨.nestedConditional, ← here⟩
      else Grammar.unexpected ["do", "\x7d"] : Parse α) = (do
      if ← looking (next (·.isKeyword "if")) then Grammar.failHere fun _ => .nestedConditional
      else Grammar.unexpected ["do", "\x7d"]) := rfl
  rw [heq]
  refine .fails (g := fun c s =>
      if next (·.isKeyword "if") s.rest then ⟨.nestedConditional, s.place c⟩
      else s.unexpected c ["do", "\x7d"])
    (.fork (.failHere _ fun _ => rfl) (.unexpected _)) (fun c s => ?_) ?_
  · rw [run_fork, run_failHere, run_unexpected]
    split <;> rfl
  · rintro c s ⟨e, he, hadmits⟩
    split at he
    · cases he
    rw [expected_unexpected, List.mem_cons, List.mem_singleton] at he
    rcases he with rfl | rfl
    · exact .inr (by rwa [Expectation.ofEntry_keyword rfl] at hadmits)
    · exact .inl hadmits

namespace Opening

theorem deed (ha : Candid m true False act) : Opening m (·.isKeyword "do") X (Grammar.deed act) :=
  .behind rfl (.map (ha.weaken (by simp)))

theorem branch (hc : Candid m true False cond) (ha : Candid m true False act) :
    Opening m (·.isKeyword "if") X (Grammar.branch cond act) := by
  refine .behind rfl (.bind (hc.weaken (by simp)) fun condition => .map ?_)
  exact (Opening.block (X := False) (.told (.deed ha) .refused)).candid

theorem statements (hc : Candid m true False cond) (ha : Candid m true False act) :
    Opening m (·.isMark .openBrace) X (Grammar.statements cond act) := by
  refine .node (.map (.map (.blockOf rfl ?_)))
  exact .accept (.told (.deed ha) (.branch hc ha)) fun t ht => by simpa [Token.isOneOf] using ht

end Opening

theorem Candid.action (levels : Nat) : Candid m tk False (Grammar.action levels) := by
  induction levels generalizing tk with
  | zero => exact .actionOver (.condition _ _) .tooDeep
  | succ levels ih =>
      exact .actionOver (.condition _ _) (Opening.statements (.condition _ _) ih).candid

/-! ## Triggers -/

/-- What follows the modifiers of a trigger. -/
theorem Candid.triggerEnd (levels : Nat) (name : Token) (modifiers : List Node) :
    Candid m true (m.token.isOneOf ["only once", "note"]) (do
      if ← Grammar.eatKeyword "when" then
        let event ← Grammar.event
        let body ← Grammar.statements (Grammar.condition levels .standalone) (Grammar.action levels)
        return Element.token name :: modifiers.map .node ++ [.node event, .node body]
      else Grammar.unexpected ["only once", "note", "when"]) := by
  refine .clause (.bind .event fun event => .map ?_) (.unexpectedOf rfl ?_)
  · exact (Opening.statements (.condition _ _) (.action levels)).candid
  · simp [Token.isOneOf, or_assoc]

theorem trigger_eq (levels : Nat) : trigger levels = (node .triggerDef do
    keyword "trigger"
    let name ← string
    let modifiers ← many triggerModifier
    if ← eatKeyword "when" then
      let event ← event
      let body ← statements (condition levels .standalone) (action levels)
      return .token name :: modifiers.map .node ++ [.node event, .node body]
    else unexpected ["only once", "note", "when"]) := by
  have hfails (f : Unit → Parse (List Element)) :
      unexpected ["only once", "note", "when"] >>= f =
        unexpected ["only once", "note", "when"] := by
    funext c s
    rw [run_bind, run_unexpected, run_unexpected]
  rw [trigger]
  congr 2
  funext _
  congr 1
  funext name
  congr 1
  funext modifiers
  congr 1
  funext found
  cases found
  · exact hfails _
  · rfl

/-- The next modifier, told by the word it begins with. -/
theorem Candid.triggerModifier : Candid m false X Grammar.triggerModifier :=
  .told (.map (.behind rfl (.pure []))) (.told (.map (.keywordThenString rfl)) (.pure none))

theorem commits_triggerModifier (m : Repair) :
    Commits 1 (next (·.isOneOf ["only once", "note"])) Grammar.triggerModifier := by
  have honly : Opening m _ True (node .onlyOnce do keyword "only once"; return []) :=
    .behind rfl (.pure [])
  have hnote : Opening m _ True (keywordThenString .note "note") := (.keywordThenString rfl)
  refine .fork (G := next (·.isKeyword "only once")) (honly.begins.map.mono fun r hr => ?_)
    (.fork (G := next (·.isKeyword "note")) (hnote.begins.map.mono fun r hr => ?_) ?_)
  · exact (Bool.and_eq_true_iff.mp hr).2
  · exact (Bool.and_eq_true_iff.mp hr).2
  · intro I c hI s hr
    simp only [next, Token.isOneOf, Bool.and_eq_true, Bool.not_eq_true'] at hr
    cases hs : s.rest with
    | nil => simp [hs] at hr
    | cons t rest => grind

theorem triggerModifier_none (h : triggerModifier c s = .ok none s') : s' = s := by
  have hat (w : String) : atKeyword w = looking (next (·.isKeyword w)) := rfl
  rw [triggerModifier, hat, hat, run_fork, run_fork, run_map, run_map] at h
  split at h
  · split at h <;> cases h
  · split at h
    · split at h <;> cases h
    · cases h
      rfl

theorem Opening.trigger (levels : Nat) :
    Opening m (·.isKeyword "trigger") X (Grammar.trigger levels) := by
  have hparts (name : Token) : Candid m true False (do
      let modifiers ← Grammar.many Grammar.triggerModifier
      if ← Grammar.eatKeyword "when" then
        let event ← Grammar.event
        let body ← Grammar.statements (Grammar.condition levels .standalone) (Grammar.action levels)
        return Element.token name :: modifiers.map .node ++ [.node event, .node body]
      else Grammar.unexpected ["only once", "note", "when"]) := by
    refine .manyThen .triggerModifier Composed.triggerModifier_productive
      (.triggerEnd levels name) ?_
    intro s s₁ hs hrun hnil hmodifier
    obtain rfl := Repair.old_injective (triggerModifier_none hrun)
    have hpast : m.Past (State.advance^[1] (m.new s₁)) := Repair.past_of_taken hs hnil
    refine commits_triggerModifier m Repair.past_lasting ?_ hpast
    exact next_iff.mpr ⟨m.token, m.behind, Repair.new_rest hnil, hmodifier⟩
  rw [trigger_eq]
  exact .behind rfl (.bind .string fun name => (hparts name).weaken (by simp))

/-! ## Definitions -/

theorem Candid.definition : Candid m true False Grammar.definition := by
  rw [definition_eq]
  refine .within fun levels => .told .roomSet (.told .room (.told .item (.told .npc
    (.told (.trigger levels) (.told .spinner (.told .goal (.unexpectedOf rfl ?_)))))))
  simp [Token.isOneOf, definitionStarters, or_assoc]

end Storyworld.Grammar
