import Storyworld.Goal.Grammar
import Storyworld.Item.Grammar
import Storyworld.Npc.Grammar
import Storyworld.Room.Grammar
import Storyworld.Spinner.Grammar
import Storyworld.Trigger.Grammar

namespace Storyworld

/-! The grammar of a whole source, and the tree it gives. A definition with a fault in it is left
out of the tree, also where reading went on behind the fault. -/

namespace Grammar

/-- The words that begin a definition. -/
def definitionStarters : List String :=
  ["let", "room", "item", "npc", "trigger", "spinner", "goal"]

def definition : Parse Node := do
  if ← atKeyword "let" then roomSet
  else if ← atKeyword "room" then room
  else if ← atKeyword "item" then item
  else if ← atKeyword "npc" then npc
  else if ← atKeyword "trigger" then trigger (← read).settings.maxNesting
  else if ← atKeyword "spinner" then spinner
  else if ← atKeyword "goal" then goal
  else unexpected definitionStarters

/-- Whether a token is a place to go on from behind a broken definition. -/
def beginsDefinition (depth : Nat) (t : Token) : Bool :=
  depth = 0 && t.isOneOf definitionStarters

def logEntry (e : Log.Entry) : Parse Unit :=
  modify fun s => { s with log := e :: s.log }

def recordFault (fault : SyntaxFault) : Parse Unit :=
  modify fun s => { s with faults := s.faults ++ [fault] }

/-- Goes on at the next definition. A definition that took no token has its first one skipped;
`left` tokens were left when it began. -/
def skipToDefinition (left : Nat) : Parse Unit :=
  modify fun s =>
    let s := if s.rest.length = left then s.advance else s
    s.skip beginsDefinition

/-- Gives a definition that was read, unless there were faults in it; `before` faults were known when
it began. -/
def keepDefinition (before : Nat) (n : Node) : Parse (Option (List Node)) := do
  if (← get).faults.length = before then return some [n]
  else
    logEntry (.droppedNode n.rule n.span)
    return some []

/-- Records the fault that ended a definition and goes on at the next one. Reading ends where
recovery is off or its budget is spent. -/
def dropDefinition (left : Nat) (fault : SyntaxFault) : Parse (Option (List Node)) := do
  recordFault fault
  let settings := (← read).settings
  if !settings.resyncs || settings.faultBudget ≤ (← get).faults.length then return none
  else
    skipToDefinition left
    return some []

/-- The next definition as a list of at most one node, or nothing where reading ends. -/
def nextDefinition : Parse (Option (List Node)) := do
  if ← atEnd then return none
  else
    let before := (← get).faults.length
    let left ← remaining
    tryCatch (do keepDefinition before (← definition)) (dropDefinition left)

/-- The definitions of a source. A source without any is at fault. -/
def document : Parse (List Node) := do
  let total ← remaining
  let definitions := (← many nextDefinition).flatten
  if definitions.isEmpty && (← get).faults.isEmpty then
    recordFault ⟨.emptyDocument, (← read).eof⟩
  logEntry (.parsed definitions.length total (← get).faults.length)
  return definitions

end Grammar

/-- A source after the grammar has been through it. -/
structure Parsed where
  tree : Tree
  faults : List SyntaxFault
  log : List Log.Entry

namespace Tree

/-- The place behind the last token; blanks and comments count. -/
def endOf (tokens : List Token) : Span :=
  match tokens.getLast? with
  | some t => t.stop
  | none => .origin

/-- Reads tokens, of which blanks and comments are set aside. -/
def ofTokens (settings : Settings) (tokens : List Token) : Parsed :=
  let significant := tokens.filter fun t => !t.isTrivia
  let comments := (tokens.filter (·.kind = .comment)).map (·.span)
  let context : Grammar.Context := ⟨settings, endOf tokens⟩
  let parse : Grammar.Parse Node := Grammar.node .sourceFile do
    return (← Grammar.document).map .node
  match parse context { rest := significant } with
  | .ok root s => ⟨⟨root, comments⟩, s.faults, s.log.reverse⟩
  | .error fault s => ⟨⟨.mk .sourceFile .origin [], comments⟩, s.faults ++ [fault], s.log.reverse⟩

end Tree

end Storyworld
