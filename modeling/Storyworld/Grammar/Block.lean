import Storyworld.Grammar.Parse

namespace Storyworld.Grammar

/-! Lists and blocks: how often a parser is repeated, how a block goes on behind a fault, and how
deep blocks may lie inside one another. -/

/-! ## Repetition -/

/-- Runs `step` until it gives nothing, at most `rounds` times. -/
def collect (step : Parse (Option α)) : (rounds : Nat) → Parse (List α)
  | 0 => return []
  | n + 1 => do
    match ← step with
    | none => return []
    | some a => return a :: (← collect step n)

/-- Runs `step` until it gives nothing. A step that gives something takes a token, so there are no
more rounds than tokens. -/
def many (step : Parse (Option α)) : Parse (List α) := do
  collect step ((← remaining) + 1)

/-- One or more items, with a comma between two of them. A comma is taken only where `continues`
allows it. -/
def commaSeparated (item : Parse α) (continues : Parse Bool) : Parse (List α) := do
  let first ← item
  let more ← many do
    if (← atMark .comma) && (← continues) then
      advance
      return some (← item)
    else return none
  return first :: more

/-- Items in parentheses with commas between them; there may be none. -/
def parenthesized (item : Parse α) : Parse (List α) := do
  mark .openParen
  let items ← if ← atMark .closeParen then pure [] else commaSeparated item (return true)
  mark .closeParen
  return items

/-! ## Recovery -/

/-- Takes tokens up to the first one that `stops`, which is told how many braces are open. -/
def State.skip (stops : Nat → Token → Bool) (s : State) : State :=
  go s.rest s
where
  go : List Token → State → State
    | [], s => s
    | t :: rest, s =>
      if stops s.depth t then s else go rest { s.advance with log := .skipped t :: s.log }

/-- Whether a token is a place to go on from inside a block whose braces are `depth` deep: the next
statement or the end of the block. -/
def endsSkip (depth : Nat) (starters : List String) (current : Nat) (t : Token) : Bool :=
  current < depth || (current = depth && (t.isMark .closeBrace || t.isOneOf starters))

/-- Records a fault of a statement and goes on behind it, or passes the fault on where recovery is
off or its budget is spent. `left` tokens were left when the statement began; a statement that took
none has its first token skipped. -/
def recover (depth : Nat) (starters : List String) (left : Nat) (fault : SyntaxFault) :
    Parse Unit := do
  let settings := (← read).settings
  let s ← get
  if !settings.resyncs || settings.faultBudget ≤ s.faults.length + 1 then throw fault
  let s := { s with faults := s.faults ++ [fault] }
  let s := if s.rest.length = left then s.advance else s
  set (s.skip (endsSkip depth starters))

/-- Statements in braces. A statement with a fault is skipped up to a place to go on from, and the
block ends where a brace that closes it has been skipped. -/
def block (starters : List String) (statement : Parse Node) : Parse (List Node) := do
  mark .openBrace
  let depth ← braceDepth
  let rounds ← many do
    if (← braceDepth) < depth then return none
    if ← eatMark .closeBrace then return none
    if ← atEnd then unexpected ["\x7d"]
    let left ← remaining
    try
      return some [← statement]
    catch fault =>
      recover depth starters left fault
      return some []
  return rounds.flatten

/-- Statements in braces, each of them begun by one of `starters`. -/
def blockOf (starters : List String) (statement : Parse Node) : Parse (List Node) :=
  block starters do
    if ← atOneOf starters then statement else unexpected (starters ++ ["\x7d"])

/-! ## Levels -/

/-- The fault that groups and schedules lie too deep inside one another. -/
def tooDeep : Parse α := do
  throw ⟨.nestingTooDeep (← read).settings.maxNesting, ← here⟩

end Storyworld.Grammar
