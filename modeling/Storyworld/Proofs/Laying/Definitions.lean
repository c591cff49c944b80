import Storyworld.Proofs.Grammar.Definitions
import Storyworld.Proofs.Laying.Parsers

namespace Storyworld.Grammar.Lays

/-! What the shared phrases and all definitions but triggers lay. -/

variable {k : Bool} {α β : Type} {pre : List Element} {d e : α → List Element}

/-! ## Choices -/

theorem ite {b : Prop} [Decidable b] {p q : Parse α} (hp : Lays k pre e p) (hq : Lays k pre e q) :
    Lays k pre e (if b then p else q) := by
  split
  · exact hp
  · exact hq

/-- A parser whose parts are not wanted. -/
theorem none {p : Parse α} (hp : Lays k [] d p) : Lays k [] (fun _ => []) p :=
  hp.thin fun _ => List.nil_sublist _

theorem map {p : Parse α} {g : α → β} {e : β → List Element} (hp : Lays k [] (fun a => e (g a)) p) :
    Lays k [] e (g <$> p) := by
  cases k with
  | false => exact .bind hp fun _ => .done rfl
  | true => exact .andThen hp fun _ => .done rfl

theorem discard {p : Parse α} (hp : Lays k [] d p) : Lays k [] (fun _ => []) (discard p) :=
  map hp.none

/-! ## Single tokens -/

theorem aheadIs (n : Nat) (p : Token → Bool) :
    Lays false [] (fun _ => []) (Grammar.aheadIs n p) :=
  .look fun r => r[n]?.any p

theorem atKeyword (w : String) : Lays false [] (fun _ => []) (Grammar.atKeyword w) :=
  aheadIs 0 _

theorem atOneOf (ws : List String) : Lays false [] (fun _ => []) (Grammar.atOneOf ws) :=
  aheadIs 0 _

theorem atMark (m : Mark) : Lays false [] (fun _ => []) (Grammar.atMark m) :=
  aheadIs 0 _

theorem unexpected (expected : List String) : Lays k pre e (Grammar.unexpected expected) :=
  .fails fun _ _ => run_unexpected expected

theorem oneOf (ws : List String) : Lays k [] (fun t => [.token t]) (Grammar.oneOf ws) :=
  .take _ _

theorem word (what : String) : Lays k [] (fun t => [.token t]) (Grammar.word what) :=
  .take _ _

theorem string : Lays k [] (fun t => [.token t]) Grammar.string :=
  .take _ _

theorem wordOrString (what : String) : Lays k [] (fun t => [.token t]) (Grammar.wordOrString what) :=
  .take _ _

theorem boolean : Lays k [] (fun t => [.token t]) Grammar.boolean :=
  .take _ _

theorem keyword (w : String) : Lays k [] (fun _ => []) (Grammar.keyword w) :=
  discard (.take _ _)

theorem mark (m : Mark) : Lays k [] (fun _ => []) (Grammar.mark m) :=
  discard (.take _ _)

theorem number : Lays k [] (fun t => [.token t]) Grammar.number := by
  refine .andThen (.take _ _) fun t => ite ?_ (.done rfl)
  exact .bind (d := fun _ => []) (.fails fun _ _ => rfl) fun _ => .done rfl

theorem eatKeyword (w : String) : Lays false [] (fun _ => []) (Grammar.eatKeyword w) :=
  .bind (atKeyword w) fun _ => ite (.bind .advance fun _ => .done rfl) (.done rfl)

theorem eatMark (m : Mark) : Lays false [] (fun _ => []) (Grammar.eatMark m) :=
  .bind (atMark m) fun _ => ite (.bind .advance fun _ => .done rfl) (.done rfl)

/-- A rule and one word. -/
theorem wordOf (r : Rule) (what : String) :
    Lays k [] Prod.snd (do return (r, [.token (← Grammar.word what)])) :=
  map (word what)

/-! ## Lists -/

theorem commaSeparated {item : Parse α} {continues : Parse Bool} (hi : Lays true [] d item)
    (hc : Lays false [] (fun _ => []) continues) :
    Lays k [] (fun as => as.flatMap d) (Grammar.commaSeparated item continues) := by
  refine .andThen hi fun first => .bind (.many (d := d) ?_) fun more => .done List.flatMap_cons
  refine .bind (atMark _) fun _ => .bind hc fun _ => ite (.bind .advance fun _ => ?_) (.done rfl)
  exact .andThen hi fun _ => .done rfl

theorem commaSeparatedAll {item : Parse α} (hi : Lays true [] d item) :
    Lays k [] (fun as => as.flatMap d) (Grammar.commaSeparated item (return true)) :=
  commaSeparated hi (.done rfl)

theorem parenthesized {item : Parse α} (hi : Lays true [] d item) :
    Lays k [] (fun as => as.flatMap d) (Grammar.parenthesized item) := by
  have hclose (items : List α) : Lays false ([] ++ [] ++ [] ++ items.flatMap d)
      (fun as => as.flatMap d) (do Grammar.mark .closeParen; return items) :=
    .bind (mark _) fun _ => .done (by simp)
  refine .andThen (mark _) fun _ => .bind (atMark _) fun _ => ite ?_ ?_
  · exact .bind (d := fun as => as.flatMap d) (.done rfl) hclose
  · exact .bind (commaSeparatedAll hi) hclose

theorem blockOf (starters : List String) {statement : Parse Node}
    (h : Lays true [] (fun n => [.node n]) statement) :
    Lays k [] (fun ns => ns.map .node) (Grammar.blockOf starters statement) :=
  .block starters (.bind (atOneOf _) fun _ => ite h (unexpected _))

/-- A row of which each member is a part. -/
theorem row {p : Parse (List α)} {c : α → Element}
    (h : Lays k [] (fun as => as.flatMap fun a => [c a]) p) :
    Lays k [] (fun as => as.map c) p :=
  h.thin fun _ => List.map_eq_flatMap ▸ .refl _

/-! ## Phrases -/

theorem node {r : Rule} {parts : Parse (List Element)} (h : Lays true [] (fun cs => cs) parts) :
    Lays k [] (fun n => [.node n]) (Grammar.node r parts) :=
  .nodeBy (map h)

theorem keywordThenString (r : Rule) (w : String) :
    Lays k [] (fun n => [.node n]) (Grammar.keywordThenString r w) :=
  node (.andThen (keyword w) fun _ => map string)

theorem keywordThenNumber (r : Rule) (w : String) :
    Lays k [] (fun n => [.node n]) (Grammar.keywordThenNumber r w) :=
  node (.andThen (keyword w) fun _ => map number)

theorem keywordThenBoolean (r : Rule) (w : String) :
    Lays k [] (fun n => [.node n]) (Grammar.keywordThenBoolean r w) :=
  node (.andThen (keyword w) fun _ => map boolean)

theorem optional (w : String) {p : Parse Node} (h : Lays false [] (fun n => [.node n]) p) :
    Lays false [] (fun cs => cs) (Grammar.optional w p) :=
  .bind (atKeyword w) fun _ => ite (map h) (.done rfl)

theorem description (r : Rule) : Lays k [] (fun n => [.node n]) (Grammar.description r) :=
  node (.andThen (oneOf _).none fun _ => map string)

theorem idList (what : String) : Lays k [] (fun n => [.node n]) (Grammar.idList what) :=
  node (map (parenthesized (word what)).row)

theorem mood : Lays k [] (fun n => [.node n]) Grammar.mood := by
  refine .bind (aheadIs 1 _) fun _ => .bind (atKeyword _) fun _ => ite (node ?_) ?_
  · refine .andThen (keyword _) fun _ => .bind (eatMark _) fun _ => ite ?_ (map (word _))
    exact .bind (word _) fun _ => .bind (mark _) fun _ => .done rfl
  · exact node (map (word _))

theorem ability : Lays k [] (fun n => [.node n]) Grammar.ability := by
  refine node (.andThen (keyword _) fun _ => .bind (word _) fun _ => .bind (eatMark _) fun _ => ?_)
  exact ite (.bind (word _) fun _ => .bind (mark _) fun _ => .done rfl) (.done rfl)

theorem containerState (r : Rule) : Lays k [] (fun n => [.node n]) (Grammar.containerState r) :=
  node (.andThen (keyword _) fun _ => .bind (keyword _) fun _ => map (word _))

/-- A word that tells what is defined, its id, and statements in braces. -/
theorem definitionOf {p : Parse Node} {id : Parse Token} (r : Rule) (w : String)
    (starters : List String) (hid : Lays false [] (fun t => [.token t]) id)
    (h : Lays true [] (fun n => [.node n]) p) :
    Lays k [] (fun n => [.node n]) (Grammar.node r do
      Grammar.keyword w
      let name ← id
      let statements ← Grammar.blockOf starters p
      return .token name :: statements.map .node) :=
  node (.andThen (keyword w) fun _ => .bind hid fun _ => .bind (blockOf _ h) fun _ => .done rfl)

/-! ## Rooms -/

theorem roomSet : Lays k [] (fun n => [.node n]) Grammar.roomSet := by
  refine node (.andThen (keyword _) fun _ => .bind (keyword _) fun _ => .bind (word _) fun _ => ?_)
  exact .bind (mark _) fun _ => .bind (idList _) fun _ => .done rfl

theorem exitOption : Lays k [] (fun n => [.node n]) Grammar.exitOption := by
  refine .bind (atKeyword _) fun _ => ite (node ?_) ?_
  · exact .andThen (keyword _) fun _ => map (idList _)
  refine .bind (atKeyword _) fun _ => ite (node ?_) ?_
  · exact .andThen (keyword _) fun _ => map (idList _)
  refine .bind (atKeyword _) fun _ => ite (keywordThenString _ _) ?_
  refine .bind (atKeyword _) fun _ => ite (node ?_) (node ?_)
  · exact .andThen (keyword _) fun _ => .done rfl
  · exact .andThen (keyword _) fun _ => .done rfl

theorem exitOptions : Lays k [] (fun n => [.node n]) Grammar.exitOptions := by
  refine node (map (blockOf _ (.andThen exitOption fun _ => ?_)))
  exact .bind (discard (eatMark _)) fun _ => .done rfl

theorem exit : Lays k [] (fun n => [.node n]) Grammar.exit := by
  refine node (.andThen (keyword _) fun _ => .bind (wordOrString _) fun _ => .bind (mark _) fun _ => ?_)
  refine .bind (word _) fun _ => .bind (atMark _) fun _ => ite ?_ (.done rfl)
  exact .bind exitOptions fun _ => .done rfl

theorem overlayCondition : Lays k [] (fun n => [.node n]) Grammar.overlayCondition := by
  refine .nodeBy (.bind (eatKeyword _) fun _ => ite ?_ (.bind (eatKeyword _) fun _ => ite ?_ ?_))
  · exact .andThen (oneOf _).none fun _ => wordOf _ _
  · refine .bind (eatKeyword _) fun _ => ite ?_ (.andThen (oneOf _).none fun _ => wordOf _ _)
    refine .andThen (keyword _) fun _ => .bind (word _) fun _ => .bind (word _) fun _ => ?_
    exact .done rfl
  refine .bind (eatKeyword _) fun _ => ite ?_ (.bind (eatKeyword _) fun _ => ite ?_ (unexpected _))
  · exact .andThen (oneOf _).none fun _ => .bind (keyword _) fun _ => wordOf _ _
  · refine .bind (eatKeyword _) fun _ => ite ?_ (.andThen (oneOf _).none fun _ => wordOf _ _)
    exact .andThen (keyword _) fun _ => .bind (word _) fun _ => .bind mood fun _ => .done rfl

theorem moodLines : Lays k [] (fun ns => ns.map .node) Grammar.moodLines :=
  blockOf _ (node (.andThen mood fun _ => .bind string fun _ => .done rfl))

theorem textPair (first second : String) (firstRule secondRule : Rule) :
    Lays k [] (fun ns => ns.map .node) (Grammar.textPair first second firstRule secondRule) :=
  blockOf _ (.bind (atKeyword _) fun _ => ite (keywordThenString _ _) (keywordThenString _ _))

theorem generalOverlay : Lays k [] (fun ns => ns.map .node) Grammar.generalOverlay := by
  have hend (conditions : List Node) (pre : List Element) (h : pre = conditions.map .node) :
      Lays false pre (fun ns => ns.map .node) (do
        let texts ← Grammar.blockOf ["text"] (Grammar.keywordThenString .overlayText "text")
        return conditions ++ texts) :=
    .bind (blockOf _ (keywordThenString _ _)) fun _ => .done (by rw [h, List.map_append])
  refine .bind (eatMark _) fun _ => .andThen (commaSeparatedAll overlayCondition).row fun ns => ?_
  exact ite (.bind (mark _) fun _ => hend ns _ (by simp)) (hend ns _ (by simp))

theorem overlay : Lays k [] (fun n => [.node n]) Grammar.overlay := by
  refine .nodeBy (.andThen (keyword _) fun _ => .bind (keyword _) fun _ => ?_)
  refine .bind (aheadIs 2 _) fun _ => .bind (aheadIs 2 _) fun _ => .bind (aheadIs 3 _) fun _ => ?_
  refine .bind (atKeyword _) fun _ => ite ?_ ?_
  · refine .bind (keyword _) fun _ => .bind (word _) fun _ => ?_
    exact .bind (textPair _ _ _ _) fun _ => .done rfl
  refine .bind (atOneOf _) fun _ => ite ?_ (.bind (atKeyword _) fun _ => ite ?_ ?_)
  · have hend (isItem : Bool) : Lays false [] Prod.snd (do
        let subject ← Grammar.word "id"
        let texts ← Grammar.textPair "present" "absent" .overlayPresentText .overlayAbsentText
        let rule := if isItem then Rule.overlayItemPresence else .overlayNpcPresence
        return (rule, .token subject :: texts.map .node)) :=
      .bind (word _) fun _ => .bind (textPair _ _ _ _) fun _ => .done rfl
    refine .bind (eatKeyword _) fun isItem => ite ?_ (hend isItem)
    exact .bind (keyword _) fun _ => hend isItem
  · refine .bind (keyword _) fun _ => .bind (word _) fun _ => .bind (keyword _) fun _ => ?_
    exact .bind moodLines fun _ => .done rfl
  · exact map generalOverlay

theorem roomStatement : Lays k [] (fun n => [.node n]) Grammar.roomStatement := by
  refine .bind (atKeyword _) fun _ => ite (keywordThenString _ _) ?_
  refine .bind (atOneOf _) fun _ => ite (description _) ?_
  refine .bind (atKeyword _) fun _ => ite (keywordThenBoolean _ _) ?_
  exact .bind (atKeyword _) fun _ => ite exit overlay

theorem room : Lays k [] (fun n => [.node n]) Grammar.room :=
  definitionOf _ _ _ (word _) roomStatement

/-! ## Items -/

theorem whenConsumed : Lays k [] (fun n => [.node n]) Grammar.whenConsumed := by
  refine .nodeBy (.andThen (keyword _) fun _ => .bind (eatKeyword _) fun _ => ite (.done rfl) ?_)
  refine .bind (keyword _) fun _ => .bind (eatKeyword _) fun _ => ite (wordOf _ _) ?_
  refine .bind (eatKeyword _) fun _ => ite ?_ (unexpected _)
  exact .bind (keyword _) fun _ => wordOf _ _

theorem consumableStatement : Lays k [] (fun n => [.node n]) Grammar.consumableStatement := by
  refine .bind (atKeyword _) fun _ => ite (keywordThenNumber _ _) ?_
  refine .bind (atKeyword _) fun _ => ite (node ?_) whenConsumed
  exact .andThen (keyword _) fun _ => map ability

theorem consumable : Lays k [] (fun n => [.node n]) Grammar.consumable :=
  node (.andThen (keyword _) fun _ => map (blockOf _ consumableStatement))

theorem itemLocation : Lays k [] (fun n => [.node n]) Grammar.itemLocation := by
  refine .nodeBy (.andThen (keyword _) fun _ => .bind (oneOf _).none fun _ => ?_)
  refine ite (.bind (keyword _) fun _ => .done rfl) (ite (wordOf _ _) ?_)
  exact ite (wordOf _ _) (ite (wordOf _ _) (map string))

theorem requirement : Lays k [] (fun n => [.node n]) Grammar.requirement := by
  refine node (.andThen (keyword _) fun _ => .bind (word _) fun _ => .bind (keyword _) fun _ => ?_)
  exact .bind (word _) fun _ => .done rfl

theorem itemStatement : Lays k [] (fun n => [.node n]) Grammar.itemStatement := by
  refine .bind (atKeyword _) fun _ => ite (keywordThenString _ _) ?_
  refine .bind (atOneOf _) fun _ => ite (description _) ?_
  refine .bind (atKeyword _) fun _ => ite (keywordThenBoolean _ _) ?_
  refine .bind (atKeyword _) fun _ => ite (keywordThenBoolean _ _) ?_
  refine .bind (atKeyword _) fun _ => ite itemLocation ?_
  refine .bind (atKeyword _) fun _ => ite ability ?_
  refine .bind (atKeyword _) fun _ => ite (keywordThenString _ _) ?_
  refine .bind (atKeyword _) fun _ => ite (containerState _) ?_
  exact .bind (atKeyword _) fun _ => ite requirement consumable

theorem item : Lays k [] (fun n => [.node n]) Grammar.item :=
  definitionOf _ _ _ (word _) itemStatement

/-! ## Npcs -/

theorem npcLocation : Lays k [] (fun n => [.node n]) Grammar.npcLocation := by
  refine .nodeBy (.andThen (keyword _) fun _ => .bind (eatKeyword _) fun _ => ite (map string) ?_)
  exact .bind (oneOf _).none fun _ => wordOf _ _

theorem movementOption :
    Lays false [] (fun n? => n?.elim [] fun n => [.node n]) Grammar.movementOption := by
  refine .bind (atKeyword _) fun _ => ite (map (node ?_)) ?_
  · exact .andThen (keyword _) fun _ => map (word _)
  refine .bind (atKeyword _) fun _ => ite (map (keywordThenBoolean _ _)) ?_
  exact .bind (atKeyword _) fun _ => ite (map (keywordThenBoolean _ _)) (.done rfl)

theorem movement : Lays k [] (fun n => [.node n]) Grammar.movement := by
  refine node (.andThen (keyword _) fun _ => .bind (oneOf _) fun _ => .bind (keyword _) fun _ => ?_)
  exact .bind (idList _) fun _ => .bind movementOption.many.row fun _ => .done rfl

theorem dialogueLine :
    Lays false [] (fun t? => t?.elim [] fun t => [.token t]) Grammar.dialogueLine :=
  .bind (eatMark _) fun _ => ite (.done rfl) (map (.take _ _))

theorem dialogue : Lays k [] (fun n => [.node n]) Grammar.dialogue := by
  refine node (.andThen (keyword _) fun _ => .bind mood fun _ => .bind (mark _) fun _ => ?_)
  exact .bind dialogueLine.many.row fun _ => .done rfl

theorem npcStatement : Lays k [] (fun n => [.node n]) Grammar.npcStatement := by
  refine .bind (atKeyword _) fun _ => ite (keywordThenString _ _) ?_
  refine .bind (atOneOf _) fun _ => ite (description _) ?_
  refine .bind (atKeyword _) fun _ => ite npcLocation ?_
  refine .bind (atKeyword _) fun _ => ite (node ?_) ?_
  · exact .andThen (keyword _) fun _ => map mood
  · exact .bind (atKeyword _) fun _ => ite movement dialogue

theorem npc : Lays k [] (fun n => [.node n]) Grammar.npc :=
  definitionOf _ _ _ (word _) npcStatement

/-! ## Spinners and goals -/

theorem wedge : Lays k [] (fun n => [.node n]) Grammar.wedge := by
  refine node (.andThen (keyword _) fun _ => .bind string fun _ => .bind (atKeyword _) fun _ => ?_)
  exact ite (.bind (keywordThenNumber _ _) fun _ => .done rfl) (.done rfl)

theorem spinner : Lays k [] (fun n => [.node n]) Grammar.spinner :=
  definitionOf _ _ _ (wordOrString _) wedge

theorem goalCondition : Lays k [] (fun n => [.node n]) Grammar.goalCondition := by
  refine .nodeBy (.andThen (oneOf _).none fun head => ?_)
  simp only
  split
  · exact .bind (oneOf _).none fun _ => wordOf _ _
  · exact .bind (keyword _) fun _ => wordOf _ _
  · exact .bind (keyword _) fun _ => wordOf _ _
  · exact .bind (keyword _) fun _ => wordOf _ _
  · refine .bind (eatKeyword _) fun _ => ite ?_ ?_
    · exact .bind (keyword _) fun _ => wordOf _ _
    · exact .bind (oneOf _).none fun _ => wordOf _ _

theorem goalPhase : Lays k [] (fun n => [.node n]) Grammar.goalPhase := by
  refine .nodeBy (.andThen (oneOf _).none fun _ => .bind (keyword _) fun _ => ?_)
  exact map goalCondition

theorem goalStatement : Lays k [] (fun n => [.node n]) Grammar.goalStatement := by
  refine .bind (atKeyword _) fun _ => ite (keywordThenString _ _) ?_
  refine .bind (atOneOf _) fun _ => ite (description _) ?_
  refine .bind (atKeyword _) fun _ => ite (node ?_) goalPhase
  exact .andThen (keyword _) fun _ => map (word _)

theorem goal : Lays k [] (fun n => [.node n]) Grammar.goal :=
  definitionOf _ _ _ (word _) goalStatement

end Storyworld.Grammar.Lays
