import Storyworld.Fault
import Storyworld.Lint

namespace Storyworld.Log

/-! What a run reports about itself. No result depends on it. -/

inductive Level where
  | debug
  | trace
  | warn
deriving DecidableEq, Repr

/-- One report. -/
inductive Entry where
  | lexed (tokens bytes : Nat)
  | lexingFailed (fault : LexFault)
  /-- A token was passed over to find the next statement. -/
  | skipped (token : Token)
  /-- A definition was given up for the syntax faults in it. -/
  | droppedNode (rule : Rule) (span : Span)
  | parsed (definitions tokens faults : Nat)
  | warned (lint : Lint)
  /-- A definition was given up for the shape faults in it. -/
  | droppedDefinition (span : Span)
  | built (definitions faults : Nat)
deriving DecidableEq, Repr

namespace Entry

def level : Entry → Level
  | skipped _ => .trace
  | warned _ => .warn
  | _ => .debug

def message : Entry → String
  | lexed tokens bytes => s!"lexed {tokens} tokens from {bytes} bytes"
  | lexingFailed fault => s!"lexing failed: {fault.message}"
  | skipped token => s!"resync: skipping {token.describe} at {token.span.label}"
  | droppedNode rule span => s!"dropping {rule.name} at {span.label} after syntax errors"
  | parsed definitions tokens faults =>
    s!"parsed {definitions} definitions from {tokens} tokens with {faults} syntax errors"
  | warned lint => lint.display
  | droppedDefinition span => s!"dropping definition at {span.label} after shape errors"
  | built definitions faults => s!"built {definitions} definitions with {faults} shape errors"

end Entry

end Storyworld.Log
