import Storyworld.Span

namespace Storyworld

/-! The lines of a source: where each one begins, which line and column an offset falls on, and
the text of a line. -/

/-- A source together with the offsets at which its lines begin. -/
structure LineIndex where
  source : List Char
  starts : List Nat
deriving DecidableEq, Repr

namespace LineIndex

/-- The offsets just behind the line feeds of a text that begins at `offset`. -/
def startsAfter : Nat → List Char → List Nat
  | _, [] => []
  | offset, c :: cs =>
    if c = '\n' then (offset + 1) :: startsAfter (offset + 1) cs
    else startsAfter (offset + c.utf8Size) cs

/-- Indexes a source. -/
def ofSource (source : List Char) : LineIndex :=
  ⟨source, 0 :: startsAfter 0 source⟩

/-- How many lines there are; a source that ends in a line feed has an empty last line. -/
def count (x : LineIndex) : Nat :=
  x.starts.length

/-- Line and column of an offset. An offset past the end counts as the end, and one inside a
character falls on the first column of its line. -/
def lineColumn (x : LineIndex) (offset : Nat) : Nat × Nat :=
  let row := x.starts.countP (· ≤ offset) - 1
  let lineStart := x.starts[row]?.getD 0
  let stop := min offset (Text.Utf8.size x.source)
  let before := (Text.slice? x.source lineStart stop).getD []
  (row + 1, before.length + 1)

/-- The text of a line without its line end; lines count from one. -/
def lineText (x : LineIndex) (line : Nat) : List Char :=
  match x.starts[line - 1]? with
  | none => []
  | some start =>
    let stop := x.starts[line]?.getD (Text.Utf8.size x.source)
    Text.trimEnd (fun c => c = '\r' || c = '\n') ((Text.slice? x.source start stop).getD [])

end LineIndex

end Storyworld
