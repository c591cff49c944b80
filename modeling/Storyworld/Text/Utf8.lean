namespace Storyworld.Text.Utf8

/-! The UTF-8 encoding form: how many bytes a text takes, the bytes themselves, and the longest
well-formed beginning of a byte string. -/

/-- Bytes a text takes in UTF-8. -/
def size : List Char → Nat
  | [] => 0
  | c :: cs => c.utf8Size + size cs

/-- The bytes of one character. -/
def encodeChar (c : Char) : List UInt8 :=
  let n := c.toNat
  if n < 0x80 then [n.toUInt8]
  else if n < 0x800 then [(0xC0 + n / 0x40).toUInt8, (0x80 + n % 0x40).toUInt8]
  else if n < 0x10000 then
    [(0xE0 + n / 0x1000).toUInt8, (0x80 + n / 0x40 % 0x40).toUInt8, (0x80 + n % 0x40).toUInt8]
  else
    [(0xF0 + n / 0x40000).toUInt8, (0x80 + n / 0x1000 % 0x40).toUInt8,
      (0x80 + n / 0x40 % 0x40).toUInt8, (0x80 + n % 0x40).toUInt8]

/-- Continuation bytes are `10xxxxxx`. -/
def isTail (b : UInt8) : Bool :=
  0x80 ≤ b && b ≤ 0xBF

/-- The second byte of a three-byte form: overlong forms and surrogates are refused here. -/
def isSecondOfThree (a b : UInt8) : Bool :=
  if a = 0xE0 then 0xA0 ≤ b && b ≤ 0xBF
  else if a = 0xED then 0x80 ≤ b && b ≤ 0x9F
  else isTail b

/-- The second byte of a four-byte form: overlong forms and values past U+10FFFF are refused
here. -/
def isSecondOfFour (a b : UInt8) : Bool :=
  if a = 0xF0 then 0x90 ≤ b && b ≤ 0xBF
  else if a = 0xF4 then 0x80 ≤ b && b ≤ 0x8F
  else isTail b

/-- The low six bits of a continuation byte. -/
def payload (b : UInt8) : Nat :=
  b.toNat % 0x40

/-- The first character of a byte string and the bytes after it. -/
def decodeChar? : List UInt8 → Option (Char × List UInt8)
  | [] => none
  | a :: bs =>
    if a < 0x80 then some (Char.ofNat a.toNat, bs)
    else if 0xC2 ≤ a && a ≤ 0xDF then
      match bs with
      | b :: bs =>
        if isTail b then some (Char.ofNat (a.toNat % 0x20 * 0x40 + payload b), bs) else none
      | _ => none
    else if 0xE0 ≤ a && a ≤ 0xEF then
      match bs with
      | b :: c :: bs =>
        if isSecondOfThree a b && isTail c then
          some (Char.ofNat (a.toNat % 0x10 * 0x1000 + payload b * 0x40 + payload c), bs)
        else none
      | _ => none
    else if 0xF0 ≤ a && a ≤ 0xF4 then
      match bs with
      | b :: c :: d :: bs =>
        if isSecondOfFour a b && isTail c && isTail d then
          some (Char.ofNat (a.toNat % 0x08 * 0x40000 + payload b * 0x1000 + payload c * 0x40
            + payload d), bs)
        else none
      | _ => none
    else none

theorem decodeChar?_length {bs rest : List UInt8} {c : Char}
    (h : decodeChar? bs = some (c, rest)) : rest.length < bs.length := by
  unfold decodeChar? at h
  repeat' split at h
  all_goals simp_all
  all_goals obtain ⟨_, rfl⟩ := h; try omega

/-- The longest well-formed beginning, and the bytes from the first one that begins no
character. -/
def decode (bs : List UInt8) : List Char × List UInt8 :=
  match _h : decodeChar? bs with
  | none => ([], bs)
  | some (c, rest) =>
    let (cs, bad) := decode rest
    (c :: cs, bad)
termination_by bs.length
decreasing_by exact decodeChar?_length _h

end Storyworld.Text.Utf8
