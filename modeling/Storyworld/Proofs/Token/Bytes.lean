import Storyworld.Proofs.Position.Place
import Storyworld.Proofs.Text.Utf8

/-! Reading bytes is reading the text they encode. Bytes that encode no text are told apart by the
longest text they begin with, and the fault of the byte behind it has the place a reader of that text
stands at. -/

namespace Storyworld.Lexer

open Text Text.Utf8

end Storyworld.Lexer
