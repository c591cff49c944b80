import Storyworld.Text.Slice

namespace Storyworld

/-! Places in a source and the regions between them. Offsets count bytes of the UTF-8 form; lines
and columns count from one, and a column counts characters. -/

/-- Where a reader stands. -/
structure Place where
  offset : Nat
  line : Nat
  column : Nat
deriving DecidableEq, Repr

namespace Place

/-- The beginning of every source. -/
def start : Place :=
  ⟨0, 1, 1⟩

/-- The place behind one character. -/
def next (p : Place) (c : Char) : Place :=
  if c = '\n' then ⟨p.offset + c.utf8Size, p.line + 1, 1⟩
  else ⟨p.offset + c.utf8Size, p.line, p.column + 1⟩

/-- The place behind a text. -/
def after (p : Place) (cs : List Char) : Place :=
  cs.foldl next p

end Place

/-- A region of a source; line and column tell where it begins. -/
structure Span where
  start : Nat
  stop : Nat
  line : Nat
  column : Nat
deriving DecidableEq, Repr

namespace Span

/-- The empty region at the beginning of every source. -/
def origin : Span :=
  ⟨0, 0, 1, 1⟩

/-- The region from a place up to an offset. -/
def between (p : Place) (stop : Nat) : Span :=
  ⟨p.offset, stop, p.line, p.column⟩

/-- The region from the beginning of one span to the end of another, never ending before it
begins. -/
def upTo (a b : Span) : Span :=
  ⟨a.start, max b.stop a.start, a.line, a.column⟩

/-- Bytes covered. -/
def length (s : Span) : Nat :=
  s.stop - s.start

/-- Whether the region covers nothing. -/
def isEmpty (s : Span) : Bool :=
  s.start = s.stop

/-- The text covered; a region that does not lie in the source on character boundaries covers
none. -/
def text (s : Span) (source : List Char) : List Char :=
  (Text.slice? source s.start s.stop).getD []

/-- Where the region begins, as `line:column`. -/
def label (s : Span) : String :=
  s!"{s.line}:{s.column}"

end Span

end Storyworld
