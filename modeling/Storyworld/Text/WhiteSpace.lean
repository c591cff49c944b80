namespace Storyworld.Text

/-! Blank characters: the code points with the Unicode property White_Space, and the byte order
mark, which separates tokens just as they do. -/

/-- The code points with the Unicode property White_Space. -/
def isWhiteSpace (c : Char) : Bool :=
  let n := c.toNat
  (0x09 ≤ n && n ≤ 0x0D) || n = 0x20 || n = 0x85 || n = 0xA0 || n = 0x1680 ||
    (0x2000 ≤ n && n ≤ 0x200A) || n = 0x2028 || n = 0x2029 || n = 0x202F || n = 0x205F ||
    n = 0x3000

/-- The byte order mark. -/
def byteOrderMark : Char := '\ufeff'

/-- What separates tokens. -/
def isBlank (c : Char) : Bool :=
  isWhiteSpace c || c = byteOrderMark

/-- The code points of general category Cc. -/
def isControl (c : Char) : Bool :=
  let n := c.toNat
  n ≤ 0x1F || (0x7F ≤ n && n ≤ 0x9F)

end Storyworld.Text
