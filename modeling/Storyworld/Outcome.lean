import Storyworld.Document.Grammar
import Storyworld.Document.Shape
import Storyworld.Token.Lexer

namespace Storyworld

/-! From the text of a source to its document, by way of tokens and a tree. -/

/-- Everything that reading a source gives. -/
structure Outcome where
  /-- The definitions without a fault; nothing where none is left and there were faults. -/
  document : Option Document
  /-- The faults in the order they were found. -/
  faults : List Fault
  warnings : List Lint
  log : List Log.Entry

namespace Outcome

/-- Whether the source is free of faults. -/
def isOk (o : Outcome) : Bool :=
  o.faults.isEmpty && o.document.isSome

/-- The document of a source free of faults, or its first fault. -/
def result (o : Outcome) : Except Fault Document :=
  match o.faults, o.document with
  | fault :: _, _ => .error fault
  | [], some document => .ok document
  | [], none => .ok {}

/-- The outcome of a source that has no tokens. -/
def ofLexFault (fault : LexFault) : Outcome :=
  { document := none, faults := [.lex fault], warnings := [], log := [.lexingFailed fault] }

/-- Reads tokens. -/
def ofTokens (settings : Settings) (tokens : List Token) : Outcome :=
  let parsed := Tree.ofTokens settings tokens
  let warnings := if parsed.faults.isEmpty then Lint.check settings parsed.tree else []
  let built := Built.ofTree settings parsed.tree
  let faults := parsed.faults.map Fault.syntactic ++ built.faults.map Fault.shape
  let document : Document := ⟨built.definitions, parsed.tree.comments⟩
  { document := if !built.definitions.isEmpty || faults.isEmpty then some document else none
    faults, warnings
    log := parsed.log ++ warnings.map .warned ++ built.log }

/-- Reads a source. -/
def ofSource (settings : Settings) (source : List Char) : Outcome :=
  match Lexer.tokens source with
  | .error fault => ofLexFault fault
  | .ok tokens =>
    let outcome := ofTokens settings tokens
    { outcome with log := .lexed tokens.length (Text.Utf8.size source) :: outcome.log }

end Outcome

namespace Document

/-- Reads a source that is to be free of faults, up to its first fault. -/
def ofSource (source : List Char) : Except Fault Document :=
  (Outcome.ofSource .strict source).result

end Document

end Storyworld
