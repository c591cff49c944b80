namespace Storyworld.Toml

/-! TOML documents as trees of tables, and the rules on which tables a line may extend. -/

/-- How a table came to be, which decides what may still be added to it. -/
inductive Origin where
  /-- Under a header of its own. -/
  | header
  /-- Only because a header named something inside it. -/
  | implied
  /-- By the dots of a key. -/
  | dotted
  /-- In braces; nothing can be added to it. -/
  | inline
deriving DecidableEq, Repr

mutual

inductive Item where
  | string (s : String)
  | integer (i : Int)
  | float
  | boolean (b : Bool)
  | date
  | array (items : List Item)
  | table (t : Table)
  /-- The tables under headers in double brackets. -/
  | tables (ts : List Table)

inductive Table where
  | mk (origin : Origin) (entries : List (String × Item))

end

namespace Table

def origin : Table → Origin
  | mk o _ => o

def entries : Table → List (String × Item)
  | mk _ es => es

def empty (o : Origin) : Table :=
  mk o []

/-- The item of a key. -/
def get? (t : Table) (key : String) : Option Item :=
  t.entries.lookup key

/-- Gives a key another item, or adds the key at the end. -/
def set (t : Table) (key : String) (item : Item) : Table :=
  if (t.get? key).isSome then
    mk t.origin (t.entries.map fun e => if e.1 = key then (key, item) else e)
  else mk t.origin (t.entries ++ [(key, item)])

def erase (t : Table) (key : String) : Table :=
  mk t.origin (t.entries.filter (·.1 ≠ key))

/-- Adds a key that is not there yet. -/
def insert? (t : Table) (key : String) (item : Item) : Option Table :=
  match t.get? key with
  | none => some (t.set key item)
  | some _ => none

/-- Changes the table that a path leads to, and hands out what the change gives besides. Tables that
are not there yet are made. Behind an array of tables the path goes on in its last one. The dots of
a key lead into no table that has a header of its own. -/
def descend (dotted : Bool) (change : Table → Option (α × Table)) :
    List String → Table → Option (α × Table)
  | [], t => change t
  | key :: path, t =>
    match t.get? key with
    | none => do
      let (a, inner) ← descend dotted change path (empty (if dotted then .dotted else .implied))
      return (a, t.set key (.table inner))
    | some (.table inner) => do
      guard !(inner.origin = .inline || (dotted && inner.origin = .header))
      let (a, inner) ← descend dotted change path inner
      return (a, t.set key (.table inner))
    | some (.tables ts) => do
      let (a, last) ← descend dotted change path (← ts.getLast?)
      return (a, t.set key (.tables (ts.dropLast ++ [last])))
    | some _ => none

/-- Adds an item under a key with dots in it: only tables made by such dots can be extended. -/
def insertPath? (t : Table) (path : List String) (key : String) (item : Item) : Option Table := do
  let insert (inner : Table) : Option (Unit × Table) := do
    guard (path.isEmpty || inner.origin = .dotted)
    return ((), ← inner.insert? key item)
  return (← t.descend true insert path).2

end Table

/-! ## Headers -/

/-- A document read up to some line: the tables finished, and the one the line belongs to with the
path of its header. -/
structure Draft where
  finished : Table := .empty .header
  path : List String := []
  /-- Whether the header stands in double brackets. -/
  repeated : Bool := false
  current : Table := .empty .header

namespace Draft

/-- The document with the current table in its place. -/
def finish (d : Draft) : Option Table :=
  match d.path.getLast? with
  | none => some d.current
  | some key => do
    let place (parent : Table) : Option (Unit × Table) :=
      match d.repeated, parent.get? key with
      | true, none => some ((), parent.set key (.tables [d.current]))
      | true, some (.tables ts) => some ((), parent.set key (.tables (ts ++ [d.current])))
      | false, none => some ((), parent.set key (.table d.current))
      | _, some _ => none
    return (← d.finished.descend false place d.path.dropLast).2

/-- Goes on under a header. A table has one header at most, but others may have implied it
before. -/
def openTable (d : Draft) (path : List String) : Option Draft := do
  let key ← path.getLast?
  let take (parent : Table) : Option (Table × Table) :=
    match parent.get? key with
    | none => some (.empty .header, parent)
    | some (.table (.mk .implied entries)) => some (.mk .header entries, parent.erase key)
    | some _ => none
  let (current, finished) ← (← d.finish).descend false take path.dropLast
  return { finished, path, repeated := false, current }

/-- Goes on under a header in double brackets, which adds a table to an array of tables. -/
def openElement (d : Draft) (path : List String) : Option Draft := do
  let key ← path.getLast?
  let check (parent : Table) : Option (Unit × Table) :=
    match parent.get? key with
    | none | some (.tables _) => some ((), parent)
    | some _ => none
  let (_, finished) ← (← d.finish).descend false check path.dropLast
  return { finished, path, repeated := true, current := .empty .header }

/-- Adds a line to the current table. -/
def add (d : Draft) (key : List String) (item : Item) : Option Draft := do
  let last ← key.getLast?
  return { d with current := ← d.current.insertPath? key.dropLast last item }

end Draft

end Storyworld.Toml
