import Storyworld.Fault
import Storyworld.Id
import Storyworld.Text.Integer
import Storyworld.Tree

namespace Storyworld.Shape

/-! Reading the parts of a node from left to right. A part that is not of the kind asked for is
missing; the fault lies where the part should be. -/

/-- Reads parts of a node; the span is that of the node. -/
abbrev Reading := ReaderT Span (StateT (List Element) (Except ShapeFault))

/-- The fault that the next part is not there. -/
def missing (what : String) : Reading α := do
  match (← get).head? with
  | some part => throw (.missing what part.span)
  | none => throw (.missing what (← read))

/-- The next part, which has to be a token. -/
def token (what : String) : Reading Token := do
  match ← get with
  | .token t :: rest =>
    set rest
    return t
  | _ => missing what

/-- The next part if it is a token. -/
def token? : Reading (Option Token) := do
  match ← get with
  | .token t :: rest =>
    set rest
    return some t
  | _ => return none

/-- The next part, which has to be a node. -/
def child (what : String) : Reading Node := do
  match ← get with
  | .node n :: rest =>
    set rest
    return n
  | _ => missing what

/-- The next part if it is a node of one of some rules. -/
def childOf? (rules : List Rule) : Reading (Option Node) := do
  match ← get with
  | .node n :: rest =>
    if rules.contains n.rule then
      set rest
      return some n
    else return none
  | _ => return none

/-- The nodes of some rules among the next parts, up to the first part that is none. -/
def childrenOf (rules : List Rule) : Reading (List Node) := do
  let parts ← get
  let isChild (part : Element) := part.node?.any fun n => rules.contains n.rule
  set (parts.dropWhile isChild)
  return Element.nodes (parts.takeWhile isChild)

/-- The parts not read yet. -/
def unread : Reading (List Element) :=
  get

/-! ## Values -/

def word (what : String) : Reading String :=
  return (← token what).text

/-- The value of a string token. -/
def stringOf (what : String) (t : Token) : Except ShapeFault String :=
  match t.stringValue? with
  | some value => .ok value
  | none => .error (.missing what t.span)

def string (what : String) : Reading String := do
  stringOf what (← token what)

/-- The value of a string, or the text of any other token. -/
def wordOrString (what : String) : Reading String := do
  let t ← token what
  return t.stringValue?.getD t.text

def boolean (what : String) : Reading Bool := do
  let t ← token what
  match t.kind with
  | .boolean value => return value
  | _ => throw (.missing what t.span)

/-- A number and where it stands. -/
def number (what : String) : Reading (Int64 × Span) := do
  let t ← token what
  match Text.Integer.word? t.text.toList with
  | some value => return (value, t.span)
  | none => throw (.missing what t.span)

/-- A number as an unsigned 32-bit word, if it fits. -/
def unsigned? (value : Int64) : Option UInt32 :=
  if 0 ≤ value.toInt ∧ value.toInt < UInt32.size then some (UInt32.ofNat value.toInt.toNat) else none

/-- A number that is not negative and fits 32 bits. -/
def countOf (what : String) (value : Int64) (span : Span) : Except ShapeFault UInt32 :=
  match unsigned? value with
  | some n => .ok n
  | none => .error (.outOfRange what value.toInt span)

def count (what : String) : Reading UInt32 := do
  let (value, span) ← number what
  countOf what value span

/-- A number from one to the largest of 32 bits. -/
def positive (what : String) : Reading UInt32 := do
  let (value, span) ← number what
  let n ← countOf what value span
  if n = 0 then throw (.outOfRange what value.toInt span)
  return n

def id (what : String) : Reading (Id of) :=
  return ⟨← word what⟩

end Storyworld.Shape

namespace Storyworld

open Shape

namespace Node

/-- Reads the parts of a node. -/
def parts (n : Node) (reading : Reading α) : Except ShapeFault α :=
  (·.1) <$> reading n.span n.children

/-- Reads the first parts of a node; the parts behind them are left over. -/
def head (n : Node) (reading : Reading α) : Except ShapeFault (α × List Element) :=
  reading n.span n.children

/-- The fault that a node does not belong where it stands. -/
def misplaced (n : Node) (what : String) : ShapeFault :=
  .missing what n.span

/-- The ids in a list, which has to have some. -/
def ids (n : Node) (what : String) : Except ShapeFault (List (Id of)) :=
  if n.tokens.isEmpty then .error (.empty what n.span)
  else .ok (n.tokens.map fun t => ⟨t.text⟩)

end Node

end Storyworld
