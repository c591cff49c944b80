import Storyworld.Text.Integer
import Storyworld.Toml

namespace Storyworld.Toml

/-! The scalars of TOML: strings, numbers, truth values, dates and times. -/

/-- Reads from the front of a text and leaves the rest. -/
abbrev Reader := StateT (List Char) Option

/-- The next character without taking it. -/
def peek? : Reader (Option Char) :=
  return (← get).head?

/-- Takes a character that satisfies `p`. -/
def take (p : Char → Bool) : Reader Char := do
  match ← get with
  | c :: cs =>
    guard (p c)
    set cs
    return c
  | [] => failure

/-- Takes all characters up to the first that does not satisfy `p`. -/
def takeWhile (p : Char → Bool) : Reader (List Char) := do
  let cs ← get
  set (cs.dropWhile p)
  return cs.takeWhile p

/-- Takes a text if it comes next, and tells whether it did. -/
def accept (s : List Char) : Reader Bool := do
  let cs ← get
  if s.isPrefixOf cs then
    set (cs.drop s.length)
    return true
  else return false

/-- Takes a text that has to come next. -/
def expect (s : List Char) : Reader Unit := do
  guard (← accept s)

/-- Takes what `r` reads, or nothing where it fails. -/
def optionally (r : Reader α) : Reader (Option α) := fun cs =>
  match r cs with
  | some (a, rest) => some (some a, rest)
  | none => some (none, cs)

/-- Runs `step` until it gives nothing, at most `rounds` times. -/
def collect (step : Reader (Option α)) : (rounds : Nat) → Reader (List α)
  | 0 => return []
  | n + 1 => do
    match ← step with
    | none => return []
    | some a => return a :: (← collect step n)

/-- Runs `step` until it gives nothing; a step that gives something takes a character. -/
def many (step : Reader (Option α)) : Reader (List α) := do
  collect step ((← get).length + 1)

/-! ## Characters -/

def isSpace (c : Char) : Bool :=
  c = ' ' || c = '\t'

/-- The characters of comments and of strings in single quotes: no controls but the tab. -/
def isPlain (c : Char) : Bool :=
  c = '\t' || (0x20 ≤ c.toNat && c.toNat ≠ 0x7F)

def isHexDigit (c : Char) : Bool :=
  c.isDigit || ('a' ≤ c && c ≤ 'f') || ('A' ≤ c && c ≤ 'F')

/-- The value of a digit in a base up to sixteen. -/
def digitValue (c : Char) : Nat :=
  if c.isDigit then c.toNat - '0'.toNat
  else if 'a' ≤ c then c.toNat - 'a'.toNat + 10
  else c.toNat - 'A'.toNat + 10

/-- The number that digits stand for. -/
def numberOf (base : Nat) (digits : List Char) : Nat :=
  digits.foldl (fun n c => n * base + digitValue c) 0

/-- A line feed, after a carriage return or without. -/
def newline : Reader Unit := do
  let _ ← accept ['\r']
  expect ['\n']

/-! ## Strings -/

/-- The character of a code point given by `count` hexadecimal digits. -/
def codePoint (count : Nat) : Reader Char := do
  let digits ← (List.replicate count ()).mapM fun _ => take isHexDigit
  let n := numberOf 16 digits
  guard n.isValidChar
  return Char.ofNat n

/-- What stands behind a backslash. -/
def escaped : Reader Char := do
  match ← take fun _ => true with
  | 'b' => return '\x08'
  | 't' => return '\t'
  | 'n' => return '\n'
  | 'f' => return '\x0c'
  | 'r' => return '\r'
  | '"' => return '"'
  | '\\' => return '\\'
  | 'u' => codePoint 4
  | 'U' => codePoint 8
  | _ => failure

/-- The rest of a string on one line, behind its opening quote. -/
def lineString (quote : Char) (escapes : Bool) : Reader String := do
  let cs ← many do
    if ← accept [quote] then return none
    if escapes then
      if ← accept ['\\'] then return some (← escaped)
    return some (← take isPlain)
  return String.ofList cs

/-- Takes a backslash at the end of a line with the blanks and line ends behind it. -/
def continuation : Reader Unit := do
  expect ['\\']
  let _ ← takeWhile isSpace
  newline
  let _ ← many do
    let cs ← get
    match cs with
    | c :: _ =>
      if isSpace c then
        let _ ← takeWhile isSpace
        return some ()
      else if c = '\n' || ['\r', '\n'].isPrefixOf cs then
        newline
        return some ()
      else return none
    | [] => return none

/-- The rest of a string over several lines, behind its three opening quotes. A line end right
behind them does not count, and up to two more quotes may stand before the three that close. -/
def blockString (quote : Char) (escapes : Bool) : Reader String := do
  let _ ← optionally newline
  let parts ← many (α := List Char) do
    if [quote, quote, quote].isPrefixOf (← get) then return none
    if escapes && (← optionally continuation).isSome then return some []
    if escapes then
      if ← accept ['\\'] then return some [← escaped]
    if (← optionally newline).isSome then return some ['\n']
    return some [← take isPlain]
  expect [quote, quote, quote]
  let more := ((← get).take 2).takeWhile (· = quote)
  modify (·.drop more.length)
  return String.ofList (parts.flatten ++ more)

/-- A string in any of its four forms. -/
def string : Reader String := do
  if ← accept ['"', '"', '"'] then blockString '"' true
  else if ← accept ['\'', '\'', '\''] then blockString '\'' false
  else if ← accept ['"'] then lineString '"' true
  else if ← accept ['\''] then lineString '\'' false
  else failure

/-! ## Numbers -/

/-- Digits, at least one, with single underscores between them. -/
def digits (isDigit : Char → Bool) : Reader (List Char) := do
  let first ← take isDigit
  let more ← many do
    if ← accept ['_'] then return some (← take isDigit)
    else optionally (take isDigit)
  return first :: more

/-- Digits without a needless zero in front. -/
def decimal : Reader (List Char) := do
  if ← accept ['0'] then return ['0'] else digits Char.isDigit

/-- Whether a minus sign comes next; takes either sign. -/
def sign : Reader Bool := do
  if ← accept ['-'] then return true
  let _ ← accept ['+']
  return false

/-- A number that fits a signed 64-bit word. -/
def word (i : Int) : Reader Int := do
  guard (Text.Integer.int64? i).isSome
  return i

def integer : Reader Int := do
  if ← accept ['0', 'x'] then word (numberOf 16 (← digits isHexDigit))
  else if ← accept ['0', 'o'] then
    word (numberOf 8 (← digits fun c => '0' ≤ c && c ≤ '7'))
  else if ← accept ['0', 'b'] then
    word (numberOf 2 (← digits fun c => c = '0' || c = '1'))
  else
    let negative ← sign
    let n := numberOf 10 (← decimal)
    word (if negative then -n else n)

/-- Takes the exponent of a number. Once it is too large for sixteen bits, further digits of it do
not count. -/
def exponent : Reader Int := do
  let _ ← take fun c => c = 'e' || c = 'E'
  let negative ← sign
  let n := (← digits Char.isDigit).foldl
    (fun n c => if n < UInt16.size then n * 10 + digitValue c else n) 0
  return if negative then -n else n

/-- The least number that a float of 64 bits rounds to infinity. It lies half a step above the
largest float, whose 53 binary digits are all one. -/
def floatLimit : Nat :=
  (Nat.pow 2 54 - 1) * Nat.pow 2 970

/-- Whether `n` times ten to the power `e` is more than a float can hold. -/
def overflows (n : Nat) (e : Int) : Bool :=
  floatLimit * Nat.pow 10 (-e).toNat ≤ n * Nat.pow 10 e.toNat

/-- Takes a number with a fraction or an exponent, or one that is not finite. A number too large
for a float is refused unless it is negative. -/
def float : Reader Unit := do
  let negative ← sign
  if ← accept ['i', 'n', 'f'] then return
  if ← accept ['n', 'a', 'n'] then return
  let whole ← decimal
  if ← accept ['.'] then
    let fraction ← digits Char.isDigit
    let e := (← optionally exponent).getD 0 - fraction.length
    guard (negative || !overflows (numberOf 10 (whole ++ fraction)) e)
  else
    let e ← exponent
    guard (negative || !overflows (numberOf 10 whole) e)

/-! ## Dates and times -/

/-- A number of `count` digits from `low` to `high`. -/
def fixed (count low high : Nat) : Reader Nat := do
  let n := numberOf 10 (← (List.replicate count ()).mapM fun _ => take Char.isDigit)
  guard (low ≤ n ∧ n ≤ high)
  return n

/-- How many days a month has. -/
def daysIn (year month : Nat) : Nat :=
  if month = 2 then
    if year % 4 = 0 ∧ (year % 100 ≠ 0 ∨ year % 400 = 0) then 29 else 28
  else if month = 4 ∨ month = 6 ∨ month = 9 ∨ month = 11 then 30
  else 31

/-- Takes a day of a year. -/
def day : Reader Unit := do
  let year ← fixed 4 0 9999
  expect ['-']
  let month ← fixed 2 1 12
  expect ['-']
  discard (fixed 2 1 (daysIn year month))

/-- Takes a time of day. -/
def time : Reader Unit := do
  let _ ← fixed 2 0 23
  expect [':']
  let _ ← fixed 2 0 59
  expect [':']
  let _ ← fixed 2 0 60
  if ← accept ['.'] then
    let _ ← take Char.isDigit
    let _ ← takeWhile Char.isDigit

/-- Takes the distance of a time from universal time. -/
def offset : Reader Unit := do
  let c ← take fun c => c = 'Z' || c = 'z' || c = '+' || c = '-'
  if c = '+' || c = '-' then
    let _ ← fixed 2 0 23
    expect [':']
    discard (fixed 2 0 59)

/-- Takes a date, a time, or both. -/
def date : Reader Unit := do
  if (← optionally day).isSome then
    let _ ← optionally do
      let _ ← take fun c => c = 'T' || c = 't' || c = ' '
      time
      discard (optionally offset)
  else time

/-! ## All scalars -/

def scalar : Reader Item := do
  match ← peek? with
  | some '"' | some '\'' => return .string (← string)
  | some 't' =>
    expect ['t', 'r', 'u', 'e']
    return .boolean true
  | some 'f' =>
    expect ['f', 'a', 'l', 's', 'e']
    return .boolean false
  | _ =>
    if (← optionally date).isSome then return .date
    else if (← optionally float).isSome then return .float
    else return .integer (← integer)

end Storyworld.Toml
