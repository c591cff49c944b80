import Storyworld.Action.Grammar
import Storyworld.Action.Shape
import Storyworld.Proofs.Spelling.Phrase

namespace Storyworld

/-! How effects are spelled. -/

namespace ContainerPatch

/-- How a source spells the change. -/
def word : ContainerPatch → String
  | set state => state.word
  | remove => "off"

end ContainerPatch

namespace ItemPatch

def pieces (p : ItemPatch) : List Piece :=
  (p.name.toList.flatMap fun s => [.keyword "name", .string s]) ++
  (p.desc.toList.flatMap fun s => [.keyword "desc", .string s]) ++
  (p.text.toList.flatMap fun s => [.keyword "text", .string s]) ++
  (p.portable.toList.flatMap fun b => [.keyword "portable", .boolean b]) ++
  (p.restricted.toList.flatMap fun b => [.keyword "restricted", .boolean b]) ++
  (p.containerState.toList.flatMap fun s =>
    [.keyword "container", .keyword "state", .keyword s.word]) ++
  (p.addAbilities.flatMap fun a => .keyword "add" :: a.pieces) ++
  p.removeAbilities.flatMap fun a => .keyword "remove" :: a.pieces

/-- Changes that a source can spell. -/
structure Writable (p : ItemPatch) : Prop where
  addAbilities : ∀ a ∈ p.addAbilities, a.Writable
  removeAbilities : ∀ a ∈ p.removeAbilities, a.Writable

end ItemPatch

namespace Effect

def pieces : Effect → List Piece
  | modifyItem item patch =>
    .keyword "modify" :: .keyword "item" :: .word item.name :: Piece.braces patch.pieces
  | showText text => [.keyword "show", .string text]
  | addFlag flag => [.keyword "add", .keyword "flag", .word flag.name]
  | removeFlag flag => [.keyword "remove", .keyword "flag", .word flag.name]
  | resetFlag flag => [.keyword "reset", .keyword "flag", .word flag.name]
  | advanceFlag flag => [.keyword "advance", .keyword "flag", .word flag.name]
  | addWedge spinner text width =>
    .keyword "add" :: .keyword "wedge" :: .string text ::
      ((width.toList.flatMap fun n => [.keyword "width", .count n]) ++
        [.keyword "spinner", .word spinner.name])
  | addSeqFlag flag limit =>
    .keyword "add" :: .keyword "seq" :: .keyword "flag" :: .word flag.name ::
      limit.toList.flatMap fun n => [.keyword "limit", .count n]
  | replaceItem old new =>
    [.keyword "replace", .keyword "item", .word old.name, .keyword "with", .word new.name]
  | replaceDropItem old new =>
    [.keyword "replace", .keyword "drop", .keyword "item", .word old.name, .keyword "with",
      .word new.name]
  | spawnItemIntoRoom item room =>
    [.keyword "spawn", .keyword "item", .word item.name, .keyword "into", .keyword "room",
      .word room.name]
  | spawnItemIntoContainer item container =>
    [.keyword "spawn", .keyword "item", .word item.name, .keyword "into", .keyword "container",
      .word container.name]
  | spawnItemInInventory item =>
    [.keyword "spawn", .keyword "item", .word item.name, .keyword "in", .keyword "inventory"]
  | spawnItemInCurrentRoom item =>
    [.keyword "spawn", .keyword "item", .word item.name, .keyword "in", .keyword "current",
      .keyword "room"]
  | spawnNpcIntoRoom npc room =>
    [.keyword "spawn", .keyword "npc", .word npc.name, .keyword "into", .keyword "room",
      .word room.name]
  | despawnNpc npc => [.keyword "despawn", .keyword "npc", .word npc.name]
  | despawnItem item => [.keyword "despawn", .keyword "item", .word item.name]
  | awardPoints amount reason =>
    .keyword "award" :: .keyword "points" :: .number amount ::
      reason.toList.flatMap fun s => [.keyword "reason", .string s]
  | lockItem item => [.keyword "lock", .keyword "item", .word item.name]
  | unlockItem item => [.keyword "unlock", .keyword "item", .word item.name]
  | lockExit origin direction =>
    [.keyword "lock", .keyword "exit", .keyword "from", .word origin.name, .keyword "direction",
      .string direction]
  | unlockExit origin direction =>
    [.keyword "unlock", .keyword "exit", .keyword "from", .word origin.name, .keyword "direction",
      .string direction]
  | revealExit origin target direction =>
    [.keyword "reveal", .keyword "exit", .keyword "from", .word origin.name, .keyword "to",
      .word target.name, .keyword "direction", .string direction]
  | pushPlayerTo room => [.keyword "push", .keyword "player", .keyword "to", .word room.name]
  | setItemDescription item text =>
    [.keyword "set", .keyword "item", .keyword "description", .word item.name, .string text]
  | npcSays npc quote => [.keyword "npc", .keyword "says", .word npc.name, .string quote]
  | npcRandomDialogue npc =>
    [.keyword "npc", .keyword "random", .keyword "dialogue", .word npc.name]
  | npcRefuseItem npc reason =>
    [.keyword "npc", .keyword "refuse", .keyword "item", .word npc.name, .string reason]
  | setNpcActive npc active =>
    [.keyword "set", .keyword "npc", .keyword "active", .word npc.name, .boolean active]
  | setNpcState npc state =>
    .keyword "set" :: .keyword "npc" :: .keyword "state" :: .word npc.name :: state.pieces
  | denyRead text => [.keyword "deny", .keyword "read", .string text]
  | restrictItem item => [.keyword "restrict", .keyword "item", .word item.name]
  | giveItemToPlayer item npc =>
    [.keyword "give", .keyword "item", .word item.name, .keyword "to", .keyword "player",
      .keyword "from", .keyword "npc", .word npc.name]
  | setBarredMessage origin target message =>
    [.keyword "set", .keyword "barred", .keyword "message", .keyword "from", .word origin.name,
      .keyword "to", .word target.name, .string message]
  | setContainerState item state =>
    [.keyword "set", .keyword "container", .keyword "state", .word item.name, .keyword state.word]
  | spinnerMessage spinner => [.keyword "spinner", .keyword "message", .word spinner.name]

/-- An effect that a source can spell. -/
def Writable : Effect → Prop
  | showText _ | denyRead _ | awardPoints _ _ => True
  | modifyItem item patch => item.Writable ∧ patch.Writable
  | addFlag flag | removeFlag flag | resetFlag flag | advanceFlag flag | addSeqFlag flag _ =>
    flag.Writable
  | addWedge spinner _ width => spinner.Writable ∧ ∀ n ∈ width, 1 ≤ n
  | replaceItem old new | replaceDropItem old new => old.Writable ∧ new.Writable
  | spawnItemIntoRoom item room => item.Writable ∧ room.Writable
  | spawnItemIntoContainer item container => item.Writable ∧ container.Writable
  | spawnItemInInventory item | spawnItemInCurrentRoom item | despawnItem item | lockItem item
  | unlockItem item | setItemDescription item _ | restrictItem item | setContainerState item _ =>
    item.Writable
  | spawnNpcIntoRoom npc room => npc.Writable ∧ room.Writable
  | despawnNpc npc | npcSays npc _ | npcRandomDialogue npc | npcRefuseItem npc _
  | setNpcActive npc _ => npc.Writable
  | lockExit origin _ | unlockExit origin _ => origin.Writable
  | revealExit origin target _ | setBarredMessage origin target _ =>
    origin.Writable ∧ target.Writable
  | pushPlayerTo room => room.Writable
  | setNpcState npc state => npc.Writable ∧ state.Writable
  | giveItemToPlayer item npc => item.Writable ∧ npc.Writable
  | spinnerMessage spinner => spinner.Writable

end Effect

namespace Grammar

open Takes Shape

variable {c : Context} {K : List Token → Prop}

/-- What can follow an action. -/
structure AfterAction (rest : List Token) : Prop where
  limit : Without (·.isKeyword "limit") rest
  reason : Without (·.isKeyword "reason") rest

/-- What is read as an effect. -/
def IsEffect (e : Effect) (n : Node) : Prop :=
  ∀ guard body, Builds (Shape.actionOver guard body n) (· = .effect e)

/-! ### Changes to an item -/

theorem patch_clauses {p : ItemPatch} (hp : p.Writable) :
    Clauses c patchStarters (starting patchStarters Grammar.patchStatement) p.pieces
      (TellsEach p ItemPatch.fields) := by
  simp only [ItemPatch.pieces, List.append_assoc]
  refine .next (.slot rfl (fun _ _ => rfl) ?name) <| .next (.slot rfl (fun _ _ => rfl) ?desc) <|
    .next (.slot rfl (fun _ _ => rfl) ?text) <| .next (.slot rfl (fun _ _ => rfl) ?portable) <|
    .next (.slot rfl (fun _ _ => rfl) ?restricted) <|
    .next (.slot rfl (fun _ _ => rfl) ?containerState) <|
    .next (.entries rfl (fun _ _ => rfl) ?added) <| .last (.entries rfl (fun _ _ => rfl) ?removed)
  case name => exact fun s _ => atKeyword_cons.mpr keywordThenString_tells
  case desc => exact fun s _ => atKeyword_cons.mpr <| atOneOf_cons.mpr description_tells
  case text =>
    refine fun s _ => atKeyword_cons.mpr <| atOneOf_cons.mpr <| atKeyword_cons.mpr ?_
    exact keywordThenString_tells
  case portable =>
    refine fun b _ => atKeyword_cons.mpr <| atOneOf_cons.mpr ?_
    iterate 2 refine atKeyword_cons.mpr ?_
    exact keywordThenBoolean_tells
  case restricted =>
    refine fun b _ => atKeyword_cons.mpr <| atOneOf_cons.mpr ?_
    iterate 3 refine atKeyword_cons.mpr ?_
    exact keywordThenBoolean_tells
  case containerState =>
    refine fun s _ => atKeyword_cons.mpr <| atOneOf_cons.mpr ?_
    iterate 4 refine atKeyword_cons.mpr ?_
    cases s <;> exact containerState_tells
  case added =>
    refine fun a ha => atKeyword_cons.mpr <| atOneOf_cons.mpr ?_
    iterate 4 refine atKeyword_cons.mpr ?_
    refine .nodeBy <| .oneOf rfl fun _ => .last ?_
    refine (ability_tells (hp.addAbilities a ha) fun _ hrest => hrest.notMark (by decide)).mono ?_
    exact fun n hn _ => ⟨List.mem_singleton_self _, heldBy_of_node hn.2⟩
  case removed =>
    refine fun a ha => atKeyword_cons.mpr <| atOneOf_cons.mpr ?_
    iterate 4 refine atKeyword_cons.mpr ?_
    refine .nodeBy <| .oneOf rfl fun _ => .last ?_
    refine (ability_tells (hp.removeAbilities a ha) fun _ hrest => hrest.notMark (by decide)).mono ?_
    exact fun n hn _ => ⟨List.mem_singleton_self _, heldBy_of_node hn.2⟩

theorem patch_builds {p : ItemPatch} {ns : List Node} (h : TellsEach p ItemPatch.fields ns) :
    Builds (ns.foldlM Shape.patchStatement {}) (· = p) := by
  refine Makes.builds ?_ (.foldlM blind_patchStatement)
  refine (ItemPatch.goesBy.makes_foldlM ?_).mpr ⟨rfl, h.gathers ItemPatch.goesBy.lawful.rules⟩
  simp [ItemPatch.fields, Keeping.slot, Keeping.list]

/-! ### Effects -/

theorem effect_takes {e : Effect} {guard body : Parse Node} (he : e.Writable) :
    Takes c (Grammar.actionOver guard body) e.pieces AfterAction (IsEffect e) := by
  refine .nodeBy ?_
  cases e with
  | modifyItem item patch =>
      refine .oneOf rfl fun _ => .keyword <| .word he.1 fun _ => .last ?_
      refine (blockOf_takes (patch_clauses he.2)).mono fun ns hns span guard body => ?_
      have hfold := patch_builds hns
      rw [← Element.nodes_map ns] at hfold
      refine Builds.bind (Q := (· = .modifyItem item patch)) (.lift rfl <| hfold.bind ?_) ?_
      · rintro _ rfl
        exact .done rfl
      · rintro _ rfl
        exact .done rfl
  | showText text =>
      refine .oneOf rfl fun _ => .string fun _ _ => ?_
      exact .done fun _ _ _ => .lift rfl <| .done rfl
  | addFlag flag =>
      refine .oneOf rfl fun _ => .eatKeyword <| .word he fun _ => ?_
      exact .done fun _ _ _ => .lift rfl <| .done rfl
  | removeFlag flag =>
      refine .oneOf rfl fun _ => .keyword <| .word he fun _ => ?_
      exact .done fun _ _ _ => .lift rfl <| .done rfl
  | resetFlag flag =>
      refine .oneOf rfl fun _ => .keyword <| .word he fun _ => ?_
      exact .done fun _ _ _ => .lift rfl <| .done rfl
  | advanceFlag flag =>
      refine .oneOf rfl fun _ => .keyword <| .word he fun _ => ?_
      exact .done fun _ _ _ => .lift rfl <| .done rfl
  | addWedge spinner text width =>
      refine .oneOf rfl fun _ => .otherKeyword (by decide) <| .otherKeyword (by decide) ?_
      refine .eatKeyword <| .string fun _ _ => .bind (optional_takes
        (P := IsClause .width (positive "wedge width")) (K := Without (·.isKeyword "width"))
        (fun _ _ => rfl) (fun n hn => keywordThenNumber_takes fun _ _ => ?_) fun _ h => h) ?_ ?_
      · exact ⟨rfl, (positive_gets (he.2 n hn)).parts⟩
      · rintro _ ⟨ns, rfl, hns⟩
        refine .keyword <| .word he.1 fun _ => .done fun _ _ _ => ?_
        refine .lift (Gets.all_parts ?_) <| .done rfl
        exact .bind (fun _ => rfl) <| .bind (optional_gets hns fun _ => rfl) fun _ => rfl
      · intro us rest hus _
        rw [Without, hus.keyword_isKeyword (i := 0) rfl]
        rfl
  | addSeqFlag flag limit =>
      refine .oneOf rfl fun _ => .otherKeyword (by decide) <| .eatKeyword <| .keyword ?_
      refine .word he fun _ => ?_
      cases limit with
      | none =>
          refine .notAtKeyword (.nil fun _ hrest => hrest.limit) ?_
          exact .done fun _ _ _ => .lift rfl <| .done rfl
      | some n =>
          refine .atKeyword <| .last <| keywordThenNumber_takes fun _ _ _ _ _ => ?_
          refine .lift (Gets.all_parts ?_) <| .done rfl
          refine .bind (fun _ => rfl) <| .bind (a := some n) ?_ fun _ => rfl
          exact clause_gets ⟨rfl, count_gets.parts⟩
  | replaceItem old new =>
      refine .oneOf rfl fun _ => .otherKeyword (by decide) <| .keyword <| .word he.1 fun _ => ?_
      refine .keyword <| .word he.2 fun _ => ?_
      exact .done fun _ _ _ => .lift rfl <| .done rfl
  | replaceDropItem old new =>
      refine .oneOf rfl fun _ => .eatKeyword <| .keyword <| .word he.1 fun _ => .keyword ?_
      refine .word he.2 fun _ => ?_
      exact .done fun _ _ _ => .lift rfl <| .done rfl
  | spawnItemIntoRoom item room =>
      refine .oneOf rfl fun _ => .otherKeyword (by decide) <| .oneOf rfl fun _ => .word he.1 fun _ => ?_
      refine .eatKeyword <| .oneOf rfl fun _ => .word he.2 fun _ => ?_
      exact .done fun _ _ _ => .lift rfl <| .done rfl
  | spawnItemIntoContainer item container =>
      refine .oneOf rfl fun _ => .otherKeyword (by decide) <| .oneOf rfl fun _ => .word he.1 fun _ => ?_
      refine .eatKeyword <| .oneOf rfl fun _ => .word he.2 fun _ => ?_
      exact .done fun _ _ _ => .lift rfl <| .done rfl
  | spawnItemInInventory item =>
      refine .oneOf rfl fun _ => .otherKeyword (by decide) <| .oneOf rfl fun _ => .word he fun _ => ?_
      refine .otherKeyword (by decide) <| .eatKeyword <| .oneOf rfl fun _ => ?_
      exact .done fun _ _ _ => .lift rfl <| .done rfl
  | spawnItemInCurrentRoom item =>
      refine .oneOf rfl fun _ => .otherKeyword (by decide) <| .oneOf rfl fun _ => .word he fun _ => ?_
      refine .otherKeyword (by decide) <| .eatKeyword <| .oneOf rfl fun _ => .keyword ?_
      exact .done fun _ _ _ => .lift rfl <| .done rfl
  | spawnNpcIntoRoom npc room =>
      refine .oneOf rfl fun _ => .eatKeyword <| .word he.1 fun _ => .keyword <| .keyword ?_
      refine .word he.2 fun _ => ?_
      exact .done fun _ _ _ => .lift rfl <| .done rfl
  | despawnNpc npc =>
      refine .oneOf rfl fun _ => .oneOf rfl fun _ => .word he fun _ => ?_
      exact .done fun _ _ _ => .lift rfl <| .done rfl
  | despawnItem item =>
      refine .oneOf rfl fun _ => .oneOf rfl fun _ => .word he fun _ => ?_
      exact .done fun _ _ _ => .lift rfl <| .done rfl
  | awardPoints amount reason =>
      refine .oneOf rfl fun _ => .keyword <| .number fun _ => ?_
      cases reason with
      | none =>
          refine .notAtKeyword (.nil fun _ hrest => hrest.reason) <| .done fun _ _ _ => ?_
          refine .lift (Gets.all_parts ?_) <| .done rfl
          exact .bind number_gets fun _ => rfl
      | some reason =>
          refine .atKeyword <| .last <| keywordThenString_takes fun _ _ _ _ _ _ => ?_
          refine .lift (Gets.all_parts ?_) <| .done rfl
          exact .bind number_gets fun _ => rfl
  | lockItem item =>
      refine .oneOf rfl fun _ => .oneOf rfl fun _ => .word he fun _ => ?_
      exact .done fun _ _ _ => .lift rfl <| .done rfl
  | unlockItem item =>
      refine .oneOf rfl fun _ => .oneOf rfl fun _ => .word he fun _ => ?_
      exact .done fun _ _ _ => .lift rfl <| .done rfl
  | lockExit origin direction =>
      refine .oneOf rfl fun _ => .oneOf rfl fun _ => .keyword <| .word he fun _ => .keyword ?_
      refine .quoted fun _ _ => ?_
      exact .done fun _ _ _ => .lift rfl <| .done rfl
  | unlockExit origin direction =>
      refine .oneOf rfl fun _ => .oneOf rfl fun _ => .keyword <| .word he fun _ => .keyword ?_
      refine .quoted fun _ _ => ?_
      exact .done fun _ _ _ => .lift rfl <| .done rfl
  | revealExit origin target direction =>
      refine .oneOf rfl fun _ => .keyword <| .keyword <| .word he.1 fun _ => .keyword ?_
      refine .word he.2 fun _ => .keyword <| .quoted fun _ _ => ?_
      exact .done fun _ _ _ => .lift rfl <| .done rfl
  | pushPlayerTo room =>
      refine .oneOf rfl fun _ => .keyword <| .keyword <| .word he fun _ => ?_
      exact .done fun _ _ _ => .lift rfl <| .done rfl
  | setItemDescription item text =>
      refine .oneOf rfl fun _ => .oneOf rfl fun _ => .keyword <| .word he fun _ => .string fun _ _ => ?_
      exact .done fun _ _ _ => .lift rfl <| .done rfl
  | npcSays npc quote =>
      refine .oneOf rfl fun _ => .oneOf rfl fun _ => .word he fun _ => .string fun _ _ => ?_
      exact .done fun _ _ _ => .lift rfl <| .done rfl
  | npcRandomDialogue npc =>
      refine .oneOf rfl fun _ => .oneOf rfl fun _ => .keyword <| .word he fun _ => ?_
      exact .done fun _ _ _ => .lift rfl <| .done rfl
  | npcRefuseItem npc reason =>
      refine .oneOf rfl fun _ => .oneOf rfl fun _ => .keyword <| .word he fun _ => .string fun _ _ => ?_
      exact .done fun _ _ _ => .lift rfl <| .done rfl
  | setNpcActive npc active =>
      refine .oneOf rfl fun _ => .oneOf rfl fun _ => .oneOf rfl fun _ => .word he fun _ => ?_
      refine .boolean fun _ _ => ?_
      exact .done fun _ _ _ => .lift rfl <| .done rfl
  | setNpcState npc state =>
      refine .oneOf rfl fun _ => .oneOf rfl fun _ => .oneOf rfl fun _ => .word he.1 fun _ => .last ?_
      refine (mood_takes he.2).mono fun n hn span guard body => ?_
      refine .lift (Gets.all_parts ?_) <| .done rfl
      exact .bind (fun _ => rfl) <| .bind (fun _ => rfl) <| .lift hn.lenient fun _ => rfl
  | denyRead text =>
      refine .oneOf rfl fun _ => .keyword <| .string fun _ _ => ?_
      exact .done fun _ _ _ => .lift rfl <| .done rfl
  | restrictItem item =>
      refine .oneOf rfl fun _ => .keyword <| .word he fun _ => ?_
      exact .done fun _ _ _ => .lift rfl <| .done rfl
  | giveItemToPlayer item npc =>
      refine .oneOf rfl fun _ => .keyword <| .word he.1 fun _ => .keyword <| .keyword <| .keyword ?_
      refine .keyword <| .word he.2 fun _ => ?_
      exact .done fun _ _ _ => .lift rfl <| .done rfl
  | setBarredMessage origin target message =>
      refine .oneOf rfl fun _ => .oneOf rfl fun _ => .keyword <| .keyword <| .word he.1 fun _ => ?_
      refine .keyword <| .word he.2 fun _ => .string fun _ _ => ?_
      exact .done fun _ _ _ => .lift rfl <| .done rfl
  | setContainerState item state =>
      refine .oneOf rfl fun _ => .oneOf rfl fun _ => .keyword <| .word he fun _ => .reserved fun _ => ?_
      exact .done fun _ _ _ => .lift (a := .setContainerState item state) (by cases state <;> rfl) <|
        .done rfl
  | spinnerMessage spinner =>
      refine .oneOf rfl fun _ => .keyword <| .word he fun _ => ?_
      exact .done fun _ _ _ => .lift rfl <| .done rfl

end Grammar

end Storyworld
