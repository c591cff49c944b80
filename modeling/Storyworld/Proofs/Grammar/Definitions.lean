import Storyworld.Proofs.Grammar.Pieces

namespace Storyworld

theorem Token.IsSpelled.choice {t : Token} {words : List String} (h : t.IsSpelled)
    (ht : t.isOneOf words) (hw : "only once" ∉ words) : (Part.choice words).admits t := by
  obtain ⟨w, hmem, hk⟩ := isOneOf_iff.mp ht
  have htext := h w hk (by rintro rfl; exact hw hmem)
  simpa [Part.admits, htext] using hmem

namespace Grammar

/-! How the parsers of definitions other than triggers are composed. -/

variable {T : Token → Prop} {S : Span → Prop} {fl tk : Bool} {rules : List Rule} {α : Type}

/-! ## Lookahead in overlays -/

/-- No brace opens at the first token of a definition, so that a test for one two tokens ahead is
settled. -/
theorem settled_brace {p : Token → Bool} (hp : ∀ t, t.isMark .closeBrace → p t = false) :
    Settled fun r => r[0]?.any p && r[2]?.any (·.isMark .openBrace) := by
  intro r b hr hb
  match r with
  | [] => simp at hr
  | [t] => simp [hp t (by simpa using hr)]
  | [t, u] =>
      cases b with
      | nil => simp
      | cons v b => simp [Token.isMark_of_isOneOf (t := v) (by simpa using hb)]
  | _ :: _ :: _ :: _ => rfl

/-- A test of three tokens does not look past more of them. -/
theorem definite_brace {p q : Token → Bool} : Definite 2 fun r => r[0]?.any p && r[2]?.any q := by
  intro r b hr _
  match r with
  | [] | [_] | [_, _] => simp at hr
  | _ :: _ :: _ :: _ => rfl

theorem definite_stateOverlay : Definite 2 fun r => r[0]?.any (·.isKeyword "npc") &&
    r[2]?.any (·.isKeyword "here") && r[3]?.any (·.isMark .openBrace) := by
  intro r b hr hclose
  match r with
  | [] | [_] | [_, _] => simp at hr
  | [_, _, v] => simp [Token.isKeyword_of_isCloser (t := v) (by simpa using hclose)]
  | _ :: _ :: _ :: _ :: _ => rfl

theorem settled_flagOverlay : Settled fun r => r[0]?.any (·.isKeyword "flag") &&
    r[2]?.any (·.isMark .openBrace) :=
  settled_brace fun _ => Token.isKeyword_of_isMark

theorem settled_subjectOverlay : Settled fun r => r[0]?.any (·.isOneOf ["item", "npc"]) &&
    r[2]?.any (·.isMark .openBrace) :=
  settled_brace fun _ => Token.isOneOf_of_isMark

theorem settled_stateOverlay : Settled fun r => r[0]?.any (·.isKeyword "npc") &&
    r[2]?.any (·.isKeyword "here") && r[3]?.any (·.isMark .openBrace) := by
  intro r b hr hb
  match r with
  | [] => simp at hr
  | [t] => simp [Token.isKeyword_of_isMark (by simpa using hr)]
  | [t, u] =>
      cases b with
      | nil => simp
      | cons v b =>
          obtain ⟨w, hmem, hk⟩ := Token.isOneOf_iff.mp (by simpa using hb)
          have hv : v.isKeyword "here" = false := by
            simp only [Token.isKeyword, hk, decide_eq_false_iff_not]
            rintro rfl
            simp [definitionStarters] at hmem
          simp [hv]
  | [t, u, v] => simp [Token.isKeyword_of_isMark (by simpa using hr)]
  | _ :: _ :: _ :: _ :: _ => rfl

/-- An overlay on a flag, behind the words all overlays begin with. -/
def flagOverlay : Parse (Rule × List Element) := do
  keyword "flag"
  let flag ← word "flag name"
  let texts ← textPair "set" "unset" .overlaySetText .overlayUnsetText
  return (.overlayFlagBinary, .token flag :: texts.map .node)

/-- An overlay on the presence of an item or an npc. -/
def presenceOverlay : Parse (Rule × List Element) := do
  let isItem ← eatKeyword "item"
  if !isItem then keyword "npc"
  let subject ← word "id"
  let texts ← textPair "present" "absent" .overlayPresentText .overlayAbsentText
  let rule := if isItem then Rule.overlayItemPresence else .overlayNpcPresence
  return (rule, .token subject :: texts.map .node)

/-- An overlay on the states of an npc. -/
def stateOverlay : Parse (Rule × List Element) := do
  keyword "npc"
  let npc ← word "npc id"
  keyword "here"
  let lines ← moodLines
  return (.overlayNpcStates, .token npc :: lines.map .node)

/-- What follows the first two words of an overlay. -/
def overlayParts : Parse (Rule × List Element) := do
  if ← looking fun r => r[0]?.any (·.isKeyword "flag") && r[2]?.any (·.isMark .openBrace) then
    flagOverlay
  else if ← looking fun r => r[0]?.any (·.isOneOf ["item", "npc"]) &&
      r[2]?.any (·.isMark .openBrace) then
    presenceOverlay
  else if ← looking fun r => r[0]?.any (·.isKeyword "npc") && r[2]?.any (·.isKeyword "here") &&
      r[3]?.any (·.isMark .openBrace) then
    stateOverlay
  else
    return (.overlayConditional, (← generalOverlay).map .node)

theorem overlay_eq : overlay = nodeBy (do keyword "overlay"; keyword "if"; overlayParts) := by
  have hnext (p : Token → Bool) : nextIs p = looking fun r => r[0]?.any p := rfl
  have hahead (n : Nat) (p : Token → Bool) : aheadIs n p = looking fun r => r[n]?.any p := rfl
  unfold overlay overlayParts
  congr 3
  funext _
  congr 1
  funext _ c s
  simp only [atKeyword, atOneOf, hnext, hahead, run_bind, run_looking]
  split
  · rfl
  · simp only [run_bind, run_looking]
    split
    · rfl
    · simp only [run_bind, run_looking, stateOverlay]

namespace Composed

/-- A statement that is begun by a word of its own. -/
theorem begun {statement : Parse Node} {N : Node → Prop}
    (hp : Composed T S false true statement N) (starters : List String) :
    Composed T S false true (do
      if ← Grammar.atOneOf starters then statement
      else Grammar.unexpected (starters ++ ["\x7d"])) N :=
  .bind .atOneOf fun _ => .ite (fun _ => hp.given) fun _ => .unexpected _

/-- Statements in braces, each begun by a word of its own. -/
theorem blockOf {starters : List String} {statement : Parse Node} {N : Node → Prop}
    (hp : Composed T S false true statement N) :
    Composed T S false tk (Grammar.blockOf starters statement) fun ns => ∀ n ∈ ns, N n :=
  .block _ (hp.begun _)

theorem costs_blockOf {starters : List String} {statement : Parse Node} {N : Node → Prop}
    (hp : Composed T S false true statement N) : Costs 2 (Grammar.blockOf starters statement) :=
  .block (hp.begun _).advances starters

/-- A statement told by the word it begins with. -/
theorem alternative {w : String} {p q : Parse α} {Q : α → Prop}
    (hp : Composed T S fl tk p Q) (hq : Composed T S fl tk q Q) :
    Composed T S fl tk (do if ← Grammar.atKeyword w then p else q) Q :=
  .bind .atKeyword fun _ => .ite (fun _ => hp.given) fun _ => hq.given

/-- A statement told by one of the words it begins with. -/
theorem alternativeOf {ws : List String} {p q : Parse α} {Q : α → Prop}
    (hp : Composed T S fl tk p Q) (hq : Composed T S fl tk q Q) :
    Composed T S fl tk (do if ← Grammar.atOneOf ws then p else q) Q :=
  .bind .atOneOf fun _ => .ite (fun _ => hp.given) fun _ => hq.given

/-- A clause told by the word it begins with, which is taken. -/
theorem clause {w : String} {p q : Parse α} {Q : α → Prop} (hp : Composed T S fl tk p Q)
    (hq : Composed T S fl tk q Q) : Composed T S fl tk (do if ← Grammar.eatKeyword w then p else q) Q :=
  .bind .eatKeyword fun _ => .ite (fun _ => hp.given) fun _ => hq.given

/-! ## Rooms -/

theorem roomSet : Composed T S fl tk Grammar.roomSet (Grown T S [.setDecl]) := by
  refine .grown (by simp) fun _ => .bind .keyword fun _ => .bind .keyword fun _ => .bind .word fun name => ?_
  refine .bind (.mark (by decide) (by decide)) fun _ => .andThen .idList fun rooms => ?_
  exact .done fun hrooms _ hname _ _ => .token hname (.node hrooms .nil)

theorem exitOption : Composed T S fl tk Grammar.exitOption (Grown T S Rule.exitOptions) := by
  refine .alternative ?_ (.alternative ?_ (.alternative ?_ (.alternative ?_ ?_)))
  · refine .grown (by simp [Rule.exitOptions]) fun _ => .bind .keyword fun _ => ?_
    exact .map .idList fun _ h _ => .node h .nil
  · refine .grown (by simp [Rule.exitOptions]) fun _ => .bind .keyword fun _ => ?_
    exact .map .idList fun _ h _ => .node h .nil
  · exact .keywordThenString (by simp [Rule.exitOptions]) rfl
  · exact .grown (by simp [Rule.exitOptions]) fun _ => .andThen .keyword fun _ => .done fun _ => .nil
  · exact .grown (by simp [Rule.exitOptions]) fun _ => .andThen .keyword fun _ => .done fun _ => .nil

/-- An option of an exit, and a comma where one comes next. -/
theorem exitOptionItem : Composed T S fl true (do
    let option ← Grammar.exitOption
    discard (Grammar.eatMark .comma)
    return option) (Grown T S Rule.exitOptions) := by
  refine .andThen .exitOption fun option => .bind (Q := fun _ => True) ?_ fun _ => .done fun _ h => h
  exact .map (.eatMark (by decide) (by decide)) fun _ _ => trivial

theorem exitBlock : Composed T S false tk Grammar.exitOptions (Grown T S [.exitBlock]) :=
  .grown (by simp) fun _ => .map (.blockOf .exitOptionItem) fun _ h => .nodes h

theorem exit : Composed T S false tk Grammar.exit (Grown T S [.exit]) := by
  refine .grown (by simp) fun _ => .bind .keyword fun _ => .bind .label fun direction => ?_
  refine .bind (.mark (by decide) (by decide)) fun _ => .andThen .word fun target => ?_
  refine .bind .atMark fun braced => .ite (fun _ => ?_) fun _ => ?_
  · exact .map .exitBlock fun options ho _ ht _ hd _ =>
      .token hd (.token ht (.optionalNode ho .nil))
  · exact .done fun _ ht _ hd _ => .token hd (.token ht (.absent .nil))

theorem overlayCondition :
    Composed T S fl true Grammar.overlayCondition (Grown T S Rule.overlayConditions) := by
  refine .grownBy fun _ => .clause ?flag (.clause ?item (.clause ?player (.clause ?npc (.unexpected _))))
  case flag =>
    refine .bind .oneOf fun which => .map .word fun t ht _ => .ite ?_ (.ite ?_ ?_)
    all_goals exact .word (by simp [Rule.overlayConditions]) rfl ht
  case item =>
    refine .clause ?_ ?_
    · refine .bind .keyword fun _ => .bind .word fun item => .andThen .word fun room => ?_
      exact .done fun hr hi _ => ⟨by simp [Rule.overlayConditions], .token hi (.token hr .nil)⟩
    · refine .bind .oneOf fun which => .map .word fun t ht _ => .ite ?_ ?_
      all_goals exact .word (by simp [Rule.overlayConditions]) rfl ht
  case player =>
    refine .bind .oneOf fun which => .bind .keyword fun _ => .map .word fun t ht _ _ => .ite ?_ ?_
    all_goals exact .word (by simp [Rule.overlayConditions]) rfl ht
  case npc =>
    refine .clause ?_ ?_
    · refine .bind .keyword fun _ => .bind .word fun npc => .andThen .mood fun state => ?_
      exact .done fun hs hn _ => ⟨by simp [Rule.overlayConditions], .token hn (.node hs .nil)⟩
    · refine .bind .oneOf fun which => .map .word fun t ht _ => .ite ?_ ?_
      all_goals exact .word (by simp [Rule.overlayConditions]) rfl ht

theorem moodLines :
    Composed T S false tk Grammar.moodLines fun ns => ∀ n ∈ ns, Grown T S [.overlayStateLine] n := by
  refine .blockOf (.grown (by simp) fun _ => .bind .mood fun state => .andThen .string fun text => ?_)
  exact .done fun ht hs => .node hs (.token ht .nil)

theorem textPair {first second : String} {r r' : Rule} (hr : r.slots = [.one .string])
    (hr' : r'.slots = [.one .string]) :
    Composed T S false tk (Grammar.textPair first second r r')
      fun ns => ∀ n ∈ ns, Grown T S [r, r'] n :=
  .blockOf (.alternative (.keywordThenString (by simp) hr) (.keywordThenString (by simp) hr'))

theorem generalOverlay :
    Composed T S false tk Grammar.generalOverlay
      fun ns => Fills T S Rule.overlayConditional.slots (ns.map .node) := by
  have htail (conditions : List Node) : Composed T S false tk (do
      let texts ← Grammar.blockOf ["text"] (Grammar.keywordThenString .overlayText "text")
      return conditions ++ texts)
      fun ns => (conditions ≠ [] ∧ ∀ n ∈ conditions, Grown T S Rule.overlayConditions n) →
        Fills T S Rule.overlayConditional.slots (ns.map .node) := by
    refine .map (.blockOf (N := Grown T S [.overlayText]) (.keywordThenString (by simp) rfl))
      fun texts htexts hconditions => ?_
    cases conditions with
    | nil => exact absurd rfl hconditions.1
    | cons n ns =>
        have hn := hconditions.2 n (by simp)
        have hns : ∀ m ∈ ns, Grown T S Rule.overlayConditions m := fun m hm =>
          hconditions.2 m (by simp [hm])
        rw [List.map_append, List.map_cons, List.cons_append]
        exact .node hn (.nodes_append hns (.many_others htexts (by decide) (.nodes htexts)))
  refine .bind (.eatMark (by decide) (by decide)) fun inParens => ?_
  refine .bind (.commaSeparatedAll .overlayCondition) fun conditions => ?_
  refine .ite (fun _ => ?_) fun _ => (htail conditions).mono fun _ h h' _ => h h'
  exact .bind (.mark (by decide) (by decide)) fun _ => (htail conditions).mono fun _ h _ h' _ => h h'

/-- What follows the word an overlay about an item or an npc begins with. -/
theorem presenceParts (isItem : Bool) : Composed T S false tk (do
    let subject ← Grammar.word "id"
    let texts ← Grammar.textPair "present" "absent" .overlayPresentText .overlayAbsentText
    let rule := if isItem then Rule.overlayItemPresence else .overlayNpcPresence
    return (rule, Element.token subject :: texts.map .node)) (Parts T S Rule.overlays) := by
  refine .bind .word fun subject => .map (.textPair rfl rfl) fun texts ht hs => .ite ?_ ?_
  all_goals exact ⟨by simp [Rule.overlays], .token hs (.nodes ht)⟩

/-! Every form of an overlay goes on behind the words that tell it apart. -/

theorem costs_textPair {first second : String} {r r' : Rule} (hr : r.slots = [.one .string])
    (hr' : r'.slots = [.one .string]) : Costs 2 (Grammar.textPair first second r r') :=
  costs_blockOf (T := fun _ => True) (S := fun _ => True)
    (.alternative (.keywordThenString (List.mem_cons_self (l := [r'])) hr)
      (.keywordThenString (by simp) hr'))

theorem costs_generalOverlay : Costs 3 Grammar.generalOverlay := by
  have hconditions : Composed (fun _ => True) (fun _ => True) true true
      (Grammar.commaSeparated Grammar.overlayCondition (return true)) _ :=
    .commaSeparatedAll .overlayCondition
  have htexts : Costs 2 (Grammar.blockOf ["text"] (Grammar.keywordThenString .overlayText "text")) :=
    costs_blockOf (T := fun _ => True) (S := fun _ => True)
      (.keywordThenString (List.mem_singleton_self _) rfl)
  change Costs (0 + (1 + 2)) (Grammar.eatMark .openParen >>= _)
  refine Costs.eatMark.bind fun _ => (Costs.one hconditions.advances).bind fun conditions => ?_
  split
  · exact (Costs.mark.bind fun _ => htexts.map).mono (by decide)
  · exact htexts.map

theorem costs_flagOverlay : Costs 3 Grammar.flagOverlay := by
  have hparts : Costs (1 + (1 + 2)) Grammar.flagOverlay :=
    Costs.keyword.bind fun _ => Costs.word.bind fun _ => (costs_textPair rfl rfl).map
  exact hparts.mono (by decide)

theorem costs_presenceOverlay : Costs 3 Grammar.presenceOverlay := by
  have hparts (isItem : Bool) : Costs (1 + 2) (do
      let subject ← Grammar.word "id"
      let texts ← Grammar.textPair "present" "absent" .overlayPresentText .overlayAbsentText
      let rule := if isItem then Rule.overlayItemPresence else .overlayNpcPresence
      return (rule, Element.token subject :: texts.map .node)) :=
    Costs.word.bind fun _ => (costs_textPair rfl rfl).map
  change Costs (0 + (1 + 2)) (Grammar.eatKeyword "item" >>= _)
  refine Costs.eatKeyword.bind fun isItem => ?_
  cases isItem with
  | true => exact hparts true
  | false => exact (Costs.keyword.bind fun _ => hparts false).mono (by decide)

theorem costs_stateOverlay : Costs 3 Grammar.stateOverlay := by
  have hlines : Composed (fun _ => True) (fun _ => True) false false Grammar.moodLines _ := moodLines
  have hparts : Costs (1 + (1 + (1 + 0))) Grammar.stateOverlay :=
    Costs.keyword.bind fun _ => Costs.word.bind fun _ => Costs.keyword.bind fun _ =>
      (Costs.zero hlines.advances).map
  exact hparts

theorem overlay : Composed T S false tk Grammar.overlay (Grown T S Rule.overlays) := by
  have hgeneral : Costs 3 (do
      return (Rule.overlayConditional, (← Grammar.generalOverlay).map Element.node)) :=
    costs_generalOverlay.map
  rw [overlay_eq]
  refine .grownBy fun _ => .bind .keyword fun _ => .bind .keyword fun _ => .given (.given ?_)
  refine .fork _ settled_flagOverlay definite_brace ?flag (.fork _ settled_subjectOverlay
    definite_brace ?presence (.fork _ settled_stateOverlay definite_stateOverlay ?state ?general
      costs_stateOverlay hgeneral) costs_presenceOverlay (.fork costs_stateOverlay hgeneral))
    costs_flagOverlay (.fork costs_presenceOverlay (.fork costs_stateOverlay hgeneral))
  case flag =>
    refine .bind .keyword fun _ => .bind .word fun flag => ?_
    refine .map (.textPair rfl rfl) fun texts ht hf _ => ?_
    exact ⟨by simp [Rule.overlays], .token hf (.nodes ht)⟩
  case presence =>
    refine .bind .eatKeyword fun isItem => .given ?_
    exact .ite (fun _ => .bind .keyword fun _ => (presenceParts isItem).given)
      fun _ => presenceParts isItem
  case state =>
    refine .bind .keyword fun _ => .bind .word fun npc => .bind .keyword fun _ => ?_
    exact .map .moodLines fun lines hl _ hn _ =>
      ⟨by simp [Rule.overlays], .token hn (.nodes hl)⟩
  case general => exact .map .generalOverlay fun _ h => ⟨by simp [Rule.overlays], h⟩

theorem roomStatement :
    Composed T S false true Grammar.roomStatement (Grown T S Rule.roomStatements) := by
  refine .alternative ?_ (.alternativeOf ?_ (.alternative ?_ (.alternative ?_ ?_)))
  · exact .keywordThenString (by simp [Rule.roomStatements]) rfl
  · exact .description (by simp [Rule.roomStatements]) rfl
  · exact .keywordThenBoolean (by simp [Rule.roomStatements]) rfl
  · exact .mono .exit fun _ h => h.mono (by simp [Rule.roomStatements])
  · exact .mono .overlay fun _ h => h.mono (List.subset_append_right _ _)

theorem room : Composed T S false tk Grammar.room (Grown T S [.roomDef]) := by
  refine .grown (by simp) fun _ => .bind .keyword fun _ => .bind .word fun id => ?_
  exact .map (.blockOf .roomStatement) fun _ h hid _ => .token hid (.nodes h)

/-! ## Items -/

theorem ability (hr : Rule.ability ∈ rules) :
    Composed T S fl tk Grammar.ability (Grown T S rules) := by
  refine .grown hr fun _ => .bind .keyword fun _ => .andThen .word fun name => ?_
  refine .bind (.eatMark (by decide) (by decide)) fun _ => .given (.ite (fun _ => ?_) fun _ => ?_)
  · refine .bind .word fun target => .bind (.mark (by decide) (by decide)) fun _ => ?_
    exact .done fun _ ht hn _ => .token hn (.optionalToken ht .nil)
  · exact .done fun hn _ => .token hn (.absent .nil)

theorem whenConsumed :
    Composed T S fl tk Grammar.whenConsumed (Grown T S Rule.consumableStatements) := by
  refine .grownBy fun _ => .andThen .keyword fun _ => .clause ?_ ?_
  · exact .done fun _ => ⟨by simp [Rule.consumableStatements], .nil⟩
  refine .bind .keyword fun _ => .clause ?_ (.clause ?_ (.unexpected _))
  · exact .map .word fun t ht _ _ => .word (by simp [Rule.consumableStatements]) rfl ht
  · exact .bind .keyword fun _ => .map .word fun t ht _ _ _ =>
      .word (by simp [Rule.consumableStatements]) rfl ht

theorem consumableStatement : Composed T S false true Grammar.consumableStatement
    (Grown T S Rule.consumableStatements) := by
  refine .alternative ?_ (.alternative ?_ .whenConsumed)
  · exact .keywordThenNumber (by simp [Rule.consumableStatements]) rfl
  · refine .grown (by simp [Rule.consumableStatements]) fun _ => .bind .keyword fun _ => ?_
    exact .map (.ability (List.mem_singleton_self _)) fun _ h _ => .node h .nil

theorem consumable : Composed T S false tk Grammar.consumable (Grown T S [.consumable]) := by
  refine .grown (by simp) fun _ => .bind .keyword fun _ => ?_
  exact .map (.blockOf .consumableStatement) fun _ h _ => .nodes h

theorem itemLocation :
    Composed T S fl tk Grammar.itemLocation (Grown T S Rule.itemLocations) := by
  refine .grownBy fun _ => .bind .keyword fun _ => .andThen .oneOf fun kind => ?_
  refine .given (.given (.ite (fun _ => ?_) fun _ => .ite (fun _ => ?_) fun _ => .ite (fun _ => ?_)
    fun _ => .ite (fun _ => ?_) fun _ => ?_))
  · exact .bind .keyword fun _ => .done fun _ => ⟨by simp [Rule.itemLocations], .nil⟩
  · exact .map .word fun t ht => .word (by simp [Rule.itemLocations]) rfl ht
  · exact .map .word fun t ht => .word (by simp [Rule.itemLocations]) rfl ht
  · exact .map .word fun t ht => .word (by simp [Rule.itemLocations]) rfl ht
  · exact .map .string fun t ht => ⟨by simp [Rule.itemLocations], .token ht .nil⟩

theorem requirement : Composed T S fl tk Grammar.requirement (Grown T S [.itemRequires]) := by
  refine .grown (by simp) fun _ => .bind .keyword fun _ => .bind .word fun needed => ?_
  refine .bind .keyword fun _ => .andThen .word fun interaction => ?_
  exact .done fun hi _ hn _ => .token hn (.token hi .nil)

theorem itemStatement :
    Composed T S false true Grammar.itemStatement (Grown T S Rule.itemStatements) := by
  refine .alternative ?name (.alternativeOf ?desc (.alternative ?portable (.alternative ?restricted
    (.alternative ?location (.alternative ?ability (.alternative ?text (.alternative ?container
      (.alternative ?requires ?consumable))))))))
  case name | text => exact .keywordThenString (by simp [Rule.itemStatements]) rfl
  case desc => exact .description (by simp [Rule.itemStatements]) rfl
  case portable | restricted => exact .keywordThenBoolean (by simp [Rule.itemStatements]) rfl
  case location => exact .mono .itemLocation fun _ h => h.mono (List.subset_append_right _ _)
  case ability => exact .ability (by simp [Rule.itemStatements])
  case container => exact .containerState (by simp [Rule.itemStatements]) rfl
  case requires => exact .mono .requirement fun _ h => h.mono (by simp [Rule.itemStatements])
  case consumable => exact .mono .consumable fun _ h => h.mono (by simp [Rule.itemStatements])

theorem item : Composed T S false tk Grammar.item (Grown T S [.itemDef]) := by
  refine .grown (by simp) fun _ => .bind .keyword fun _ => .bind .word fun id => ?_
  exact .map (.blockOf .itemStatement) fun _ h hid _ => .token hid (.nodes h)

/-! ## Npcs -/

theorem npcLocation : Composed T S fl tk Grammar.npcLocation (Grown T S Rule.npcStatements) := by
  refine .grownBy fun _ => .bind .keyword fun _ => .clause ?_ ?_
  · exact .map .string fun t ht _ => ⟨by simp [Rule.npcStatements], .token ht .nil⟩
  · exact .bind .oneOf fun _ => .map .word fun t ht _ _ =>
      .word (by simp [Rule.npcStatements]) rfl ht

theorem movementTiming :
    Composed T S fl tk (Grammar.node .movementTiming do
      Grammar.keyword "timing"
      return [.token (← Grammar.word "timing tag")]) (Grown T S Rule.movementOptions) :=
  .grown (by simp [Rule.movementOptions])
    fun _ => .bind .keyword fun _ => .map .word fun _ ht _ => .token ht .nil

theorem movementFlag {r : Rule} {w : String} (hr : r ∈ [Rule.movementActive, .movementLoop]) :
    Composed T S fl tk (Grammar.keywordThenBoolean r w) (Grown T S Rule.movementOptions) := by
  have hrule : r = .movementActive ∨ r = .movementLoop := by simpa using hr
  rcases hrule with rfl | rfl
  · exact .keywordThenBoolean (by simp [Rule.movementOptions]) rfl
  · exact .keywordThenBoolean (by simp [Rule.movementOptions]) rfl

theorem movementOption : Composed T S fl false Grammar.movementOption
    fun n? => ∀ n ∈ n?, Grown T S Rule.movementOptions n := by
  have hsome (n : Node) (h : Grown T S Rule.movementOptions n) :
      ∀ m ∈ some n, Grown T S Rule.movementOptions m := by simpa using h
  refine .alternative (.map .movementTiming hsome) ?_
  refine .alternative (.map (.movementFlag (by simp)) hsome) ?_
  exact .alternative (.map (.movementFlag (by simp)) hsome) (.done (by simp))

theorem movementOption_productive : Productive Grammar.movementOption := by
  have hflag {r : Rule} {w : String} (hr : r ∈ [Rule.movementActive, .movementLoop]) :
      Composed (fun _ => True) (fun _ => True) true true (Grammar.keywordThenBoolean r w)
        (Grown _ _ Rule.movementOptions) := .movementFlag hr
  have htiming : Composed (fun _ => True) (fun _ => True) true true
      (Grammar.node .movementTiming do
        Grammar.keyword "timing"
        return [.token (← Grammar.word "timing tag")]) (Grown _ _ Rule.movementOptions) :=
    .movementTiming
  refine .alternative htiming.advances (.alternative (hflag (by simp)).advances ?_)
  exact .alternative (hflag (by simp)).advances .none

theorem movement (hT : ∀ t, T t → t.IsSpelled) :
    Composed T S fl tk Grammar.movement (Grown T S [.npcMovement]) := by
  refine .grown (by simp) fun _ => .bind .keyword fun _ => .bind .oneOf fun kind => .bind .keyword fun _ => ?_
  refine .andThen .idList fun rooms => ?_
  refine .map (.many .movementOption movementOption_productive) fun options ho hr _ hk _ => ?_
  exact .token ⟨hk.1, (hT _ hk.1.1).choice hk.2 (by decide)⟩ (.node hr (.nodes ho))

theorem dialogue : Composed T S false tk Grammar.dialogue (Grown T S [.dialogue]) := by
  have hassoc (state : Node) : (do
      Grammar.mark .openBrace
      let lines ← Grammar.many Grammar.dialogueLine
      return Element.node state :: lines.map .token) = (do
      let lines ← (do Grammar.mark .openBrace; Grammar.many Grammar.dialogueLine)
      return Element.node state :: lines.map .token) := (bind_assoc _ _ _).symm
  refine .grown (by simp) fun _ => .bind .keyword fun _ => .bind .mood fun state => ?_
  rw [hassoc]
  exact .map .lines fun _ hl hs _ => .node hs (.tokens hl)

theorem npcStatement (hT : ∀ t, T t → t.IsSpelled) :
    Composed T S false true Grammar.npcStatement (Grown T S Rule.npcStatements) := by
  refine .alternative ?_ (.alternativeOf ?_ (.alternative ?_ (.alternative ?_ (.alternative ?_ ?_))))
  · exact .keywordThenString (by simp [Rule.npcStatements]) rfl
  · exact .description (by simp [Rule.npcStatements]) rfl
  · exact .npcLocation
  · refine .grown (by simp [Rule.npcStatements]) fun _ => .bind .keyword fun _ => ?_
    exact .map .mood fun _ h _ => .node h .nil
  · exact .mono (.movement hT) fun _ h => h.mono (by simp [Rule.npcStatements])
  · exact .mono .dialogue fun _ h => h.mono (by simp [Rule.npcStatements])

theorem npc (hT : ∀ t, T t → t.IsSpelled) :
    Composed T S false tk Grammar.npc (Grown T S [.npcDef]) := by
  refine .grown (by simp) fun _ => .bind .keyword fun _ => .bind .word fun id => ?_
  exact .map (.blockOf (.npcStatement fun t h => hT t h.1)) fun _ h hid _ => .token hid (.nodes h)

/-! ## Goals and spinners -/

/-- A condition of a goal that is one word, read once its rule is known. -/
theorem goalSubject (r : Rule) (hr : r ∈ Rule.goalConditions) (hs : r.slots = [.one .word]) :
    Composed T S fl true (do
      let rule ← pure r
      return (rule, [Element.token (← Grammar.word "id")])) (Parts T S Rule.goalConditions) := by
  refine .bind (.done (Q := (· = r)) rfl) fun rule => .map .word fun t ht hrule => ?_
  exact .word (hrule ▸ hr) (hrule ▸ hs) ht

theorem goalCondition :
    Composed T S fl tk Grammar.goalCondition (Grown T S Rule.goalConditions) := by
  refine .grownBy fun _ => .bind .oneOf fun head => .given ?_
  split
  · refine .bind .oneOf fun what => .given ?_
    by_cases hw : what.text = "flag"
    · simp only [hw, if_true]
      exact goalSubject .gcHasFlag (by simp [Rule.goalConditions]) rfl
    · simp only [hw, if_false]
      exact goalSubject .gcHasItem (by simp [Rule.goalConditions]) rfl
  · exact .bind .keyword fun _ => (goalSubject .gcMissingFlag (by simp [Rule.goalConditions]) rfl).given
  · exact .bind .keyword fun _ => (goalSubject .gcReachedRoom (by simp [Rule.goalConditions]) rfl).given
  · exact .bind .keyword fun _ => (goalSubject .gcGoalComplete (by simp [Rule.goalConditions]) rfl).given
  · refine .clause (.bind .keyword fun _ => .given ?_) (.bind .oneOf fun _ => .given ?_)
    · exact goalSubject .gcFlagInProgress (by simp [Rule.goalConditions]) rfl
    · exact goalSubject .gcFlagComplete (by simp [Rule.goalConditions]) rfl

theorem goalStatement :
    Composed T S fl true Grammar.goalStatement (Grown T S Rule.goalStatements) := by
  refine .alternative ?_ (.alternativeOf ?_ (.alternative ?_ ?_))
  · exact .keywordThenString (by simp [Rule.goalStatements]) rfl
  · exact .description (by simp [Rule.goalStatements]) rfl
  · refine .grown (by simp [Rule.goalStatements]) fun _ => .bind .keyword fun _ => ?_
    exact .map .word fun _ ht _ => .token ht .nil
  · refine .grownBy fun _ => .bind .oneOf fun phase => .bind .keyword fun _ => ?_
    refine .map .goalCondition fun _ h _ _ => .ite ?_ (.ite ?_ ?_)
    all_goals exact ⟨by simp [Rule.goalStatements], .node h .nil⟩

theorem goal : Composed T S false tk Grammar.goal (Grown T S [.goalDef]) := by
  refine .grown (by simp) fun _ => .bind .keyword fun _ => .bind .word fun id => ?_
  exact .map (.blockOf .goalStatement) fun _ h hid _ => .token hid (.nodes h)

theorem wedge : Composed T S fl tk Grammar.wedge (Grown T S [.wedge]) := by
  refine .grown (by simp) fun _ => .bind .keyword fun _ => .andThen .string fun text => .alternative ?_ ?_
  · exact .map (.keywordThenNumber (List.mem_singleton_self _) rfl) fun _ hw ht _ =>
      .token ht (.optionalNode hw .nil)
  · exact .done fun ht _ => .token ht (.absent .nil)

theorem spinner : Composed T S false tk Grammar.spinner (Grown T S [.spinnerDef]) := by
  refine .grown (by simp) fun _ => .bind .keyword fun _ => .bind .label fun id => ?_
  exact .map (.blockOf .wedge) fun _ h hid _ => .token hid (.nodes h)

end Composed

end Grammar

end Storyworld
