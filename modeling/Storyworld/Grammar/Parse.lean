import Storyworld.Log
import Storyworld.Text.Integer

namespace Storyworld.Grammar

/-! Reading tokens by recursive descent. A parser takes tokens from the front of what is left, and
either gives a result or a fault; tokens it took stay taken in both cases. -/

/-- How far reading has come. -/
structure State where
  /-- The tokens still to be read. -/
  rest : List Token
  /-- Where the token read last lies. -/
  last : Span := .origin
  /-- How many braces are open. -/
  depth : Nat := 0
  /-- The faults recovered from, in the order they were found. -/
  faults : List SyntaxFault := []
  /-- The log, newest entry first. -/
  log : List Log.Entry := []

/-- What stays the same while a source is read. -/
structure Context where
  settings : Settings
  /-- The place behind the last token of the source. -/
  eof : Span

/-- A parser. -/
abbrev Parse := ReaderT Context (EStateM SyntaxFault State)

/-! ## Looking ahead -/

/-- The token `n` places ahead. -/
def ahead? (n : Nat) : Parse (Option Token) :=
  return (← get).rest[n]?

/-- Whether the token `n` places ahead satisfies `p`. -/
def aheadIs (n : Nat) (p : Token → Bool) : Parse Bool :=
  return (← ahead? n).any p

/-- Whether the next token satisfies `p`. -/
def nextIs (p : Token → Bool) : Parse Bool :=
  aheadIs 0 p

def atKeyword (word : String) : Parse Bool :=
  nextIs (·.isKeyword word)

def atOneOf (words : List String) : Parse Bool :=
  nextIs (·.isOneOf words)

def atMark (m : Mark) : Parse Bool :=
  nextIs (·.isMark m)

def atEnd : Parse Bool :=
  return (← get).rest.isEmpty

/-- Where the next token lies. -/
def here : Parse Span := do
  match ← ahead? 0 with
  | some t => return t.span
  | none => return (← read).eof

/-- How many braces are open. -/
def braceDepth : Parse Nat :=
  return (← get).depth

/-- How many tokens are left. -/
def remaining : Parse Nat :=
  return (← get).rest.length

/-! ## Taking tokens -/

/-- The braces open behind a token. -/
def depthAfter (depth : Nat) (t : Token) : Nat :=
  match t.kind with
  | .mark .openBrace => depth + 1
  | .mark .closeBrace => depth - 1
  | _ => depth

/-- Takes the next token, if there is one. -/
def State.advance (s : State) : State :=
  match s.rest with
  | [] => s
  | t :: rest => { s with rest, last := t.span, depth := depthAfter s.depth t }

def advance : Parse Unit :=
  modify State.advance

/-- The fault that none of the alternatives in `expected` comes next. -/
def unexpected (expected : List String) : Parse α := do
  match ← ahead? 0 with
  | some t => throw ⟨.unexpected expected t.describe, t.span⟩
  | none => throw ⟨.unexpectedEnd expected, (← read).eof⟩

/-- Takes the next token, which has to satisfy `accept`. -/
def expect (expected : List String) (accept : Token → Bool) : Parse Token := do
  match ← ahead? 0 with
  | some t => if accept t then advance; return t else unexpected expected
  | none => unexpected expected

def keyword (word : String) : Parse Unit :=
  discard (expect [word] (·.isKeyword word))

/-- One of several reserved words; the token tells which. -/
def oneOf (words : List String) : Parse Token :=
  expect words (·.isOneOf words)

def mark (m : Mark) : Parse Unit :=
  discard (expect [m.spelling] (·.isMark m))

/-- A word where the grammar has an id. -/
def word (what : String) : Parse Token :=
  expect [what] (·.isWord)

def string : Parse Token :=
  expect ["string"] (·.isString)

def wordOrString (what : String) : Parse Token :=
  expect [what, "string"] (fun t => t.isWord || t.isString)

/-- A number, which has to fit a signed 64-bit word. -/
def number : Parse Token := do
  let t ← expect ["number"] (·.kind = .number)
  if (Text.Integer.word? t.text.toList).isNone then
    throw ⟨.malformedNumber t.text, t.span⟩
  return t

def boolean : Parse Token :=
  expect ["true", "false"] fun t => t.kind = .boolean true || t.kind = .boolean false

/-- Takes the next token if it is the reserved word `word`, and tells whether it was. -/
def eatKeyword (word : String) : Parse Bool := do
  let found ← atKeyword word
  if found then advance
  return found

/-- Takes the next token if it is the mark `m`, and tells whether it was. -/
def eatMark (m : Mark) : Parse Bool := do
  let found ← atMark m
  if found then advance
  return found

/-! ## Nodes -/

/-- A node over the tokens that `parts` takes; `parts` also finds out which rule it follows. -/
def nodeBy (parts : Parse (Rule × List Element)) : Parse Node := do
  let start ← here
  let (rule, children) ← parts
  return .mk rule (start.upTo (← get).last) children

/-- A node over the tokens that `parts` takes. -/
def node (rule : Rule) (parts : Parse (List Element)) : Parse Node :=
  nodeBy (return (rule, ← parts))

end Storyworld.Grammar
