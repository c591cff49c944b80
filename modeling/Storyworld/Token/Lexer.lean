import Storyworld.Fault
import Storyworld.Token.Scan

namespace Storyworld

/-! The lexer: a source that hands out its tokens one at a time and stops for good at its end or at
the first fault. -/

/-- A source partly read. -/
structure Lexer where
  source : List Char
  rest : List Char
  place : Place
  stopped : Bool
deriving DecidableEq, Repr

namespace Lexer

/-- A source not yet read. -/
def ofSource (source : List Char) : Lexer :=
  ⟨source, source, .start, false⟩

/-- Goes back to the beginning. -/
def reset (x : Lexer) : Lexer :=
  ofSource x.source

/-- The token a lexeme is at a place. -/
def tokenAt (p : Place) (l : Token.Lexeme) : Token :=
  ⟨l.kind, .between p (p.after l.text).offset, String.ofList l.text⟩

/-- The fault of a string opened at a place. -/
def unclosedAt (p : Place) : LexFault :=
  .unclosedString (.between p (p.offset + 1))

/-- The fault of a control character at a place. -/
def controlAt (p : Place) (c : Char) : LexFault :=
  .strayByte ((Text.Utf8.encodeChar c).headD 0) (.between p (p.offset + c.utf8Size))

/-- The next token or the fault in its place, and the source read up to there. -/
def next (x : Lexer) : Option (Except LexFault Token) × Lexer :=
  if x.stopped then (none, x)
  else
    match Token.scan x.rest with
    | .finished => (none, { x with stopped := true })
    | .lexeme l =>
      (some (.ok (tokenAt x.place l)), { x with rest := l.rest, place := x.place.after l.text })
    | .unclosed => (some (.error (unclosedAt x.place)), { x with stopped := true })
    | .control c => (some (.error (controlAt x.place c)), { x with stopped := true })

/-- Takes at most `rounds` more tokens. -/
def drainFor : (rounds : Nat) → Lexer → List (Except LexFault Token) × Lexer
  | 0, x => ([], x)
  | n + 1, x =>
    match x.next with
    | (none, x) => ([], x)
    | (some result, x) =>
      let (results, x) := drainFor n x
      (result :: results, x)

/-- Takes all tokens left, and the fault that ends them if there is one. Every token takes a
character, so there is no more of them than characters. -/
def drain (x : Lexer) : List (Except LexFault Token) × Lexer :=
  drainFor (x.rest.length + 1) x

/-- The tokens in a list of results, or the first fault among them. -/
def collect : List (Except LexFault Token) → Except LexFault (List Token)
  | [] => .ok []
  | .error f :: _ => .error f
  | .ok t :: results => (collect results).map (t :: ·)

/-- All tokens of a source, blanks and comments included. -/
def tokens (source : List Char) : Except LexFault (List Token) :=
  collect (ofSource source).drain.1

/-- The text of a byte string, or the first byte that fits no UTF-8 text. -/
def readBytes (bytes : List UInt8) : Except LexFault (List Char) :=
  match Text.Utf8.decode bytes with
  | (source, []) => .ok source
  | (source, bad :: _) =>
    let p := Place.start.after source
    .error (.strayByte bad (.between p (p.offset + 1)))

end Lexer

end Storyworld
