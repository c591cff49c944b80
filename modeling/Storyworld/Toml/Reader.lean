import Storyworld.Toml.Scalar

namespace Storyworld.Toml

/-! The lines of a TOML document: keys, values, headers and comments. -/

/-- How many arrays and tables in braces may lie inside one another, and how many parts a key may
have. -/
def maxLevels : Nat :=
  79

/-! ## Blanks -/

/-- Takes spaces and tabs. -/
def blanks : Reader Unit :=
  discard (takeWhile isSpace)

/-- Takes a comment if one comes next. -/
def comment : Reader Unit := do
  if ← accept ['#'] then discard (takeWhile isPlain)

/-- Takes the rest of a line, on which only a comment may stand. -/
def lineRest : Reader Unit := do
  blanks
  comment
  if !(← get).isEmpty then newline

/-- Takes blanks, comments and line ends. -/
def gap : Reader Unit := do
  let _ ← many do
    blanks
    comment
    optionally newline

/-! ## Keys -/

def isBareKeyChar (c : Char) : Bool :=
  c.isAlphanum || c = '_' || c = '-'

/-- A part of a key: bare, or a string on one line. -/
def keyPart : Reader String := do
  blanks
  let part ←
    if ← accept ['"'] then lineString '"' true
    else if ← accept ['\''] then lineString '\'' false
    else do
      let cs ← takeWhile isBareKeyChar
      guard !cs.isEmpty
      pure (String.ofList cs)
  blanks
  return part

/-- A key: parts with dots between them. -/
def key : Reader (List String) := do
  let first ← keyPart
  let more ← many do
    if ← accept ['.'] then return some (← keyPart) else return none
  guard (more.length < maxLevels)
  return first :: more

/-! ## Values -/

/-- Items with commas between them up to a closing bracket. -/
def items (item : Reader α) (between : Reader Unit) (trailing : Bool) (closing : Char) :
    Reader (List α) := do
  between
  if ← accept [closing] then return []
  let first ← item
  between
  let more ← many do
    if ← accept [closing] then return none
    expect [',']
    between
    if trailing then
      if (← peek?) = some closing then return some []
    let next ← item
    between
    return some [next]
  return first :: more.flatten

/-- A line that gives a key a value. -/
def assignment (value : Reader Item) : Reader (List String × Item) := do
  let path ← key
  expect ['=']
  blanks
  return (path, ← value)

/-- The table that assignments in braces make up. -/
def inlineTable? (assignments : List (List String × Item)) : Option Table := do
  let t ← assignments.foldlM (fun t (path, item) => do
    t.insertPath? path.dropLast (← path.getLast?) item) (Table.empty .header)
  return .mk .inline t.entries

/-- A value; `inner` reads the values inside an array or a table in braces. -/
def valueOver (inner : Reader Item) : Reader Item := do
  if ← accept ['['] then
    return .array (← items inner gap true ']')
  else if ← accept ['\x7b'] then
    let assignments ← items (assignment inner) blanks false '\x7d'
    return .table (← inlineTable? assignments)
  else scalar

/-- A value in which at most `levels` arrays and tables lie inside one another. -/
def value : (levels : Nat) → Reader Item
  | 0 => scalar
  | levels + 1 => valueOver fun cs => value levels cs

/-! ## Documents -/

/-- Reads one line into a document. -/
def line (d : Draft) : Reader Draft := do
  blanks
  match ← peek? with
  | some '[' =>
    let repeated ← accept ['[', '[']
    if !repeated then expect ['[']
    let path ← key
    expect (if repeated then [']', ']'] else [']'])
    lineRest
    if repeated then d.openElement path else d.openTable path
  | some '#' | some '\n' | some '\r' | none =>
    lineRest
    return d
  | some _ =>
    let (path, item) ← assignment (value maxLevels)
    lineRest
    d.add path item

/-- Reads lines to the end of a text; every line takes a character. -/
def lines : (rounds : Nat) → Draft → Reader Draft
  | 0, d => return d
  | n + 1, d => do
    if (← get).isEmpty then return d
    lines n (← line d)

/-- The document a text stands for. A byte order mark in front does not count. -/
def read? (text : List Char) : Option Table := do
  let text := if text.head? = some '\ufeff' then text.tail else text
  let (d, rest) ← lines (text.length + 1) {} text
  guard rest.isEmpty
  d.finish

end Storyworld.Toml
