import Storyworld.Npc
import Storyworld.Shape.Collecting
import Storyworld.Shape.Word

namespace Storyworld.Shape

/-! Npcs out of their nodes. -/

/-! ## Movement -/

/-- A movement with one more option. -/
def movementOption (movement : Movement) (n : Node) : Collecting Movement := do
  match n.rule with
  | .movementTiming =>
    let timing ← n.parts (id "timing")
    return { movement with timing := ← setOnce movement.timing "movement timing" n.span timing }
  | .movementActive =>
    let active ← n.parts (boolean "active")
    return { movement with active := ← setOnce movement.active "movement active" n.span active }
  | .movementLoop =>
    let looped ← n.parts (boolean "loop")
    return { movement with
      loopRoute := ← setOnce movement.loopRoute "movement loop" n.span looped }
  | _ => throw (n.misplaced "movement option")

def movement (n : Node) : Collecting Movement := do
  let ((kind, list), options) ← n.head do
    let kind ← word "movement kind"
    let list ← child "movement rooms"
    return (kind, list)
  let plain : Movement :=
    { kind := if kind = "route" then .route else .random, rooms := ← list.ids "movement rooms",
      timing := none, active := none, loopRoute := none }
  (Element.nodes options).foldlM movementOption plain

/-! ## Dialogue -/

/-- The lines of a dialogue are its strings; there has to be one. -/
def dialogue (n : Node) : Except ShapeFault Dialogue := do
  let (state, parts) ← n.head do
    strictMood (← child "dialogue state")
  let lines := (Element.tokens parts).filterMap Token.stringValue?
  if lines.isEmpty then throw (.empty "dialogue block" n.span)
  return { state, lines, span := n.span }

/-! ## Npcs -/

/-- An npc with one more statement. -/
def npcStatement (npc : Npc) (n : Node) : Collecting Npc := do
  let place (l : Npc.Location) : Collecting Npc :=
    return { npc with location := ← setOnce npc.location "npc location" n.span l }
  match n.rule with
  | .npcName =>
    let name ← n.parts (string "npc name")
    return { npc with name := ← setOnce npc.name "npc name" n.span name }
  | .npcDesc =>
    let desc ← n.parts (string "npc description")
    return { npc with desc := ← setOnce npc.desc "npc description" n.span desc }
  | .locRoom => place (.room (← n.parts (id "room id")))
  | .locNowhere => place (.nowhere (← n.parts (string "nowhere note")))
  | .npcState =>
    let state ← strictMood (← n.parts (child "npc state"))
    return { npc with state := ← setOnce npc.state "npc state" n.span state }
  | .npcMovement =>
    let movement ← movement n
    return { npc with movement := ← setOnce npc.movement "movement" n.span movement }
  | .dialogue => return { npc with dialogue := npc.dialogue ++ [← dialogue n] }
  | _ => throw (n.misplaced "npc statement")

/-- An npc has to have a statement. -/
def npc (n : Node) : Collecting Npc := do
  let (id, statements) ← n.head (id "npc id")
  if (Element.nodes statements).isEmpty then throw (.empty "npc block" n.span)
  let plain : Npc :=
    { id, name := none, desc := none, location := none, state := none, movement := none,
      dialogue := [], span := n.span }
  keepChanges npcStatement plain (Element.nodes statements)

end Storyworld.Shape
