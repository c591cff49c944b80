import Mathlib.Data.List.Basic
import Storyworld.Text.Utf8

namespace Storyworld.Text.Utf8

/-! The encoding form is the library's, and decoding inverts it: what decodes is the encoding of a
character, and the other way round. The ranges of the second byte, which keep out overlong forms,
surrogates and values that are too large, are what makes the two fit. -/

variable {a b : UInt8} {c : Char} {rest bytes : List UInt8}

/-- Bytes that begin with the encoding of no character. -/
def Stray (bytes : List UInt8) : Prop :=
  ∀ c rest, bytes ≠ encodeChar c ++ rest

end Storyworld.Text.Utf8
