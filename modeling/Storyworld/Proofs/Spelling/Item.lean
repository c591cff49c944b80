import Storyworld.Item.Grammar
import Storyworld.Proofs.Spelling.Phrase

namespace Storyworld

/-! How items are spelled. -/

namespace Item.Location

def pieces : Item.Location → List Piece
  | inventory => [.keyword "location", .keyword "inventory", .keyword "player"]
  | room id => [.keyword "location", .keyword "room", .word id.name]
  | chest id => [.keyword "location", .keyword "chest", .word id.name]
  | npc id => [.keyword "location", .keyword "npc", .word id.name]
  | nowhere note => [.keyword "location", .keyword "nowhere", .string note]

/-- A location that a source can spell. -/
def Writable : Item.Location → Prop
  | inventory | nowhere _ => True
  | room id => id.Writable
  | chest id => id.Writable
  | npc id => id.Writable

end Item.Location

namespace WhenConsumed

def pieces : WhenConsumed → List Piece
  | despawn => [.keyword "when_consumed", .keyword "despawn"]
  | replaceInventory replacement =>
    [.keyword "when_consumed", .keyword "replace", .keyword "inventory", .word replacement.name]
  | replaceCurrentRoom replacement =>
    [.keyword "when_consumed", .keyword "replace", .keyword "current", .keyword "room",
      .word replacement.name]

/-- What a source can spell. -/
def Writable : WhenConsumed → Prop
  | despawn => True
  | replaceInventory replacement | replaceCurrentRoom replacement => replacement.Writable

end WhenConsumed

namespace Consumable

/-- The statements of a consumable. -/
def body (x : Consumable) : List Piece :=
  [.keyword "uses_left", .count x.usesLeft] ++
  (x.consumeOn.flatMap fun a => .keyword "consume_on" :: a.pieces) ++
  x.whenConsumed.pieces

def pieces (x : Consumable) : List Piece :=
  .keyword "consumable" :: Piece.braces x.body

/-- A consumable that a source can spell. -/
structure Writable (x : Consumable) : Prop where
  usesLeft : 1 ≤ x.usesLeft
  consumeOn : ∀ a ∈ x.consumeOn, a.Writable
  whenConsumed : x.whenConsumed.Writable

end Consumable

namespace AbilityRequirement

def pieces (x : AbilityRequirement) : List Piece :=
  [.keyword "requires", .word x.ability.name, .keyword "to", .word x.interaction.name]

/-- A requirement that a source can spell. -/
def Writable (x : AbilityRequirement) : Prop :=
  x.ability.Writable ∧ x.interaction.Writable

end AbilityRequirement

namespace Item

/-- The statements of an item. -/
def body (i : Item) : List Piece :=
  (i.name.toList.flatMap fun s => [.keyword "name", .string s]) ++
  (i.desc.toList.flatMap fun s => [.keyword "desc", .string s]) ++
  (i.portable.toList.flatMap fun b => [.keyword "portable", .boolean b]) ++
  (i.restricted.toList.flatMap fun b => [.keyword "restricted", .boolean b]) ++
  (i.location.toList.flatMap Item.Location.pieces) ++
  (i.abilities.flatMap Ability.pieces) ++
  (i.text.flatMap fun s => [.keyword "text", .string s]) ++
  (i.containerState.toList.flatMap fun s =>
    [.keyword "container", .keyword "state", .keyword s.word]) ++
  (i.requires.flatMap AbilityRequirement.pieces) ++
  i.consumable.toList.flatMap Consumable.pieces

def pieces (i : Item) : List Piece :=
  .keyword "item" :: .word i.id.name :: Piece.braces i.body

/-- An item that a source can spell. -/
structure Writable (i : Item) : Prop where
  id : i.id.Writable
  location : ∀ l ∈ i.location, l.Writable
  abilities : ∀ a ∈ i.abilities, a.Writable
  requires : ∀ x ∈ i.requires, x.Writable
  consumable : ∀ x ∈ i.consumable, x.Writable

end Item

namespace Grammar

open Takes Shape

variable {c : Context} {K : List Token → Prop}

/-! ## Consumables -/

theorem whenConsumed_tells {x : WhenConsumed} (hx : x.Writable) :
    Takes c Grammar.consumableStatement x.pieces K fun n =>
      n.rule ∈ [.whenConsumedDespawn, .whenConsumedReplaceInventory, .whenConsumedReplaceRoom] ∧
        x.ToldBy n := by
  cases x with
  | despawn =>
      refine atKeyword_cons.mpr <| atKeyword_cons.mpr <| .nodeBy <| .keyword ?_
      exact .eatKeyword <| .done fun _ => ⟨by simp [Node.rule], rfl⟩
  | replaceInventory replacement =>
      refine atKeyword_cons.mpr <| atKeyword_cons.mpr <| .nodeBy <| .keyword ?_
      refine .otherKeyword (by decide) <| .keyword <| .eatKeyword ?_
      exact .word hx fun _ => .done fun _ => ⟨by simp [Node.rule], rfl, _, _, rfl, rfl⟩
  | replaceCurrentRoom replacement =>
      refine atKeyword_cons.mpr <| atKeyword_cons.mpr <| .nodeBy <| .keyword ?_
      refine .otherKeyword (by decide) <| .keyword <| .otherKeyword (by decide) <| .eatKeyword ?_
      exact .keyword <| .word hx fun _ => .done fun _ => ⟨by simp [Node.rule], rfl, _, _, rfl, rfl⟩

theorem consumableBody_clauses {x : Consumable} (hx : x.Writable) :
    Clauses c ["uses_left", "consume_on", "when_consumed"] (starting
      ["uses_left", "consume_on", "when_consumed"] Grammar.consumableStatement) x.body
      (TellsEach ⟨some x.usesLeft, x.consumeOn, some x.whenConsumed⟩ Consumable.fields) := by
  rw [Consumable.body, List.append_assoc]
  refine .next (.filled rfl rfl ?uses) <| .next (.entries rfl (fun _ _ => rfl) ?used) <|
    .last (.filled rfl ?begins (whenConsumed_tells hx.whenConsumed))
  case uses =>
    refine atKeyword_cons.mpr <| keywordThenNumber_takes fun _ _ => ⟨List.mem_singleton_self _, ?_⟩
    exact countedBy_of_number hx.usesLeft
  case used =>
    intro a ha
    refine atKeyword_cons.mpr <| atKeyword_cons.mpr <| .node <| .keyword <| .last ?_
    refine (ability_tells (hx.consumeOn a ha) fun _ hrest => hrest.notMark (by decide)).mono ?_
    exact fun n hn _ => ⟨List.mem_singleton_self _, heldBy_of_node hn.2⟩
  case begins => cases x.whenConsumed <;> rfl

theorem consumable_tells {x : Consumable} (hx : x.Writable) :
    Takes c Grammar.consumable x.pieces K fun n => n.rule ∈ [.consumable] ∧ x.Reflects n := by
  refine .node <| .keyword <| .last <| (blockOf_takes (consumableBody_clauses hx)).mono ?_
  intro ns hns span
  refine ⟨List.mem_singleton_self _, ?_⟩
  rw [Consumable.Reflects, Node.nodes, Node.children, Element.nodes_map]
  exact hns.gathers Consumable.goesBy.lawful.rules

/-! ## Items -/

theorem itemLocation_tells {l : Item.Location} (hl : l.Writable) :
    Takes c Grammar.itemLocation l.pieces K fun n => n.rule ∈ Rule.itemLocations ∧ l.ToldBy n := by
  refine .nodeBy ?_
  cases l with
  | inventory =>
      refine .keyword <| .oneOf rfl fun _ => .keyword <| .done fun _ => ?_
      exact ⟨by simp [Node.rule, Rule.itemLocations], rfl⟩
  | room id | chest id | npc id =>
      refine .keyword <| .oneOf rfl fun _ => .word hl fun _ => .done fun _ => ?_
      exact ⟨by simp [Node.rule, Rule.itemLocations], rfl, _, _, rfl, rfl⟩
  | nowhere note =>
      refine .keyword <| .oneOf rfl fun _ => .string fun _ _ => .done fun _ => ?_
      exact ⟨by simp [Node.rule, Rule.itemLocations], rfl, _, _, rfl, rfl⟩

theorem requirement_tells {x : AbilityRequirement} (hx : x.Writable) :
    Takes c Grammar.requirement x.pieces K fun n => n.rule ∈ [.itemRequires] ∧ x.ToldBy n :=
  .node <| .keyword <| .word hx.1 fun _ => .keyword <| .word hx.2 fun _ => .done fun _ =>
    ⟨List.mem_singleton_self _, _, _, _, rfl, rfl, rfl⟩

/-- The location is spelled behind the two statements that say yes or no. -/
theorem itemBody_clauses {i : Item} (hi : i.Writable) :
    Clauses c itemStarters (starting itemStarters Grammar.itemStatement) i.body
      (Gathers Item.fields i) := by
  suffices h : Clauses c itemStarters (starting itemStarters Grammar.itemStatement) i.body
      (TellsEach i [Item.fields[0], Item.fields[1], Item.fields[3], Item.fields[4], Item.fields[2],
        Item.fields[5], Item.fields[6], Item.fields[7], Item.fields[8], Item.fields[9]]) by
    refine h.mono fun ns hns => (hns.gathers (by decide)).perm_fields ?_
    exact ((((List.Perm.swap _ _ _).cons _).trans (List.Perm.swap _ _ _)).cons _).cons _
  simp only [Item.body, List.append_assoc]
  refine .next (.slot rfl (fun _ _ => rfl) ?name) <| .next (.slot rfl (fun _ _ => rfl) ?desc) <|
    .next (.slot rfl (fun _ _ => rfl) ?portable) <|
    .next (.slot rfl (fun _ _ => rfl) ?restricted) <| .next (.slot rfl ?locates ?location) <|
    .next (.entries rfl (fun _ _ => rfl) ?abilities) <|
    .next (.entries rfl (fun _ _ => rfl) ?text) <|
    .next (.slot rfl (fun _ _ => rfl) ?containerState) <|
    .next (.entries rfl (fun _ _ => rfl) ?requires) <|
    .last (.slot rfl (fun _ _ => rfl) ?consumable)
  case name => exact fun s _ => atKeyword_cons.mpr keywordThenString_tells
  case desc => exact fun s _ => atKeyword_cons.mpr <| atOneOf_cons.mpr description_tells
  case portable =>
    refine fun b _ => atKeyword_cons.mpr <| atOneOf_cons.mpr <| atKeyword_cons.mpr ?_
    exact keywordThenBoolean_tells
  case restricted =>
    refine fun b _ => atKeyword_cons.mpr <| atOneOf_cons.mpr ?_
    iterate 2 refine atKeyword_cons.mpr ?_
    exact keywordThenBoolean_tells
  case locates => exact fun l _ => by cases l <;> rfl
  case location =>
    intro l hl
    have hlocation := itemLocation_tells (c := c) (K := EndsIn itemStarters) (hi.location l hl)
    cases l <;> exact atKeyword_cons.mpr <| atOneOf_cons.mpr <| atKeyword_cons.mpr <|
      atKeyword_cons.mpr <| atKeyword_cons.mpr hlocation
  case abilities =>
    refine fun a ha => atKeyword_cons.mpr <| atOneOf_cons.mpr ?_
    iterate 4 refine atKeyword_cons.mpr ?_
    exact ability_tells (hi.abilities a ha) fun _ hrest => hrest.notMark (by decide)
  case text =>
    refine fun s _ => atKeyword_cons.mpr <| atOneOf_cons.mpr ?_
    iterate 5 refine atKeyword_cons.mpr ?_
    exact keywordThenString_tells
  case containerState =>
    refine fun s _ => atKeyword_cons.mpr <| atOneOf_cons.mpr ?_
    iterate 6 refine atKeyword_cons.mpr ?_
    exact containerState_tells
  case requires =>
    refine fun x hx => atKeyword_cons.mpr <| atOneOf_cons.mpr ?_
    iterate 7 refine atKeyword_cons.mpr ?_
    exact requirement_tells (hi.requires x hx)
  case consumable =>
    refine fun x hx => atKeyword_cons.mpr <| atOneOf_cons.mpr ?_
    iterate 7 refine atKeyword_cons.mpr ?_
    exact consumable_tells (hi.consumable x hx)

theorem item_takes {i : Item} {limit : Nat} (hi : i.Writable) :
    Takes c Grammar.item i.pieces K (Says limit (.item i)) := by
  refine .node <| .keyword <| .word hi.id fun _ => (blockOf_takes (itemBody_clauses hi)).map ?_
  intro ns hns span
  refine says_of_makes (x := { i with span }) rfl
    (Item.makes_iff.mpr ⟨⟨_, _, rfl, rfl⟩, rfl, ?_⟩) rfl
  rw [nodes_named]
  exact hns.congr (by simp [Item.fields])

end Grammar

end Storyworld
