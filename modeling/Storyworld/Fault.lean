import Storyworld.Token

namespace Storyworld

/-! What can be wrong with a source, by the stage that finds it, and how each fault is worded. -/

/-- Faults that leave a source without tokens. -/
inductive LexFault where
  /-- A string that never closes; the span covers its first byte. -/
  | unclosedString (span : Span)
  /-- A byte outside UTF-8, or the first byte of a control character outside a string. -/
  | strayByte (byte : UInt8) (span : Span)
deriving DecidableEq, Repr

/-- The ways in which tokens can miss the grammar. -/
inductive SyntaxFault.Cause where
  | unexpected (expected : List String) (found : String)
  | unexpectedEnd (expected : List String)
  | malformedNumber (text : String)
  | nestedConditional
  | emptyDocument
  | nestingTooDeep (limit : Nat)
deriving DecidableEq, Repr

/-- A place at which the tokens miss the grammar. -/
structure SyntaxFault where
  cause : SyntaxFault.Cause
  span : Span
deriving DecidableEq, Repr

/-- Faults of a tree that the grammar lets pass. -/
inductive ShapeFault where
  | missing (what : String) (span : Span)
  | empty (what : String) (span : Span)
  | unknownWord (what : String) (value : String) (expected : List String) (span : Span)
  | repeated (what : String) (span : Span)
  | outOfRange (what : String) (value : Int) (span : Span)
deriving DecidableEq, Repr

/-- Any fault of a source. -/
inductive Fault where
  | lex (fault : LexFault)
  | syntactic (fault : SyntaxFault)
  | shape (fault : ShapeFault)
deriving DecidableEq, Repr

/-- A byte as two lower-case hexadecimal digits. -/
def twoHexDigits (b : UInt8) : String :=
  String.ofList [Nat.digitChar (b.toNat / 16), Nat.digitChar (b.toNat % 16)]

namespace LexFault

def span : LexFault → Span
  | unclosedString s => s
  | strayByte _ s => s

def message : LexFault → String
  | unclosedString s => s!"unterminated string literal starting at {s.label}"
  | strayByte b s => s!"invalid byte 0x{twoHexDigits b} at {s.label}"

end LexFault

namespace SyntaxFault

/-- How a set of alternatives is listed. -/
def listing : List String → String
  | [] => "something else"
  | [a] => a
  | [a, b] => s!"{a} or {b}"
  | a :: b :: c :: more =>
    let all := a :: b :: c :: more
    "one of " ++ ", ".intercalate all.dropLast ++ ", or " ++ all.getLast?.getD c

def Cause.message : Cause → String
  | unexpected expected found => s!"expected {listing expected}, found {found}"
  | unexpectedEnd expected => s!"expected {listing expected}, found end of input"
  | malformedNumber text => s!"malformed number '{text}'"
  | nestedConditional => "`if` blocks cannot be nested inside another `if` block"
  | emptyDocument => "document contains no definitions"
  | nestingTooDeep limit => s!"nesting deeper than {limit} levels"

/-- What the grammar would have accepted, where that is the trouble. -/
def expected (f : SyntaxFault) : List String :=
  match f.cause with
  | .unexpected expected _ | .unexpectedEnd expected => expected
  | _ => []

def message (f : SyntaxFault) : String :=
  s!"{f.cause.message} at {f.span.label}"

end SyntaxFault

namespace ShapeFault

def span : ShapeFault → Span
  | missing _ s => s
  | empty _ s => s
  | unknownWord _ _ _ s => s
  | repeated _ s => s
  | outOfRange _ _ s => s

def message : ShapeFault → String
  | missing what s => s!"{what} is missing at {s.label}"
  | empty what s => s!"{what} must contain at least one entry at {s.label}"
  | unknownWord what value expected s =>
    let words := ", ".intercalate expected
    s!"invalid {what} '{value}' at {s.label} (expected one of: {words})"
  | repeated what s => s!"{what} is given more than once at {s.label}"
  | outOfRange what value s => s!"{what} out of range ({value}) at {s.label}"

end ShapeFault

namespace Fault

def span : Fault → Span
  | lex f => f.span
  | syntactic f => f.span
  | shape f => f.span

def message : Fault → String
  | lex f => s!"lex error: {f.message}"
  | syntactic f => s!"syntax error: {f.message}"
  | shape f => s!"shape error: {f.message}"

end Fault

end Storyworld
