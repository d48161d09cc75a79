import LinearPattern.Op

/-!
# Byte strings as visible text

Messages show byte strings in printable ASCII: a printable byte is shown as it is, a tab, a line
feed, a carriage return, a quote and a backslash are shown behind a backslash, and every other byte
is shown as `\x` with two hexadecimal digits.

* `visibleByte`: the characters of one byte, between one and four of them;
* `visible`: the text of a byte string.
-/

namespace LinearPattern

/-- The visible form of one byte. -/
def visibleByte (b : UInt8) : List Char :=
  if b == 0x09 then "\\t".toList
  else if b == 0x0a then "\\n".toList
  else if b == 0x0d then "\\r".toList
  else if b == 0x22 || b == 0x27 || b == 0x5c then "\\".toList ++ [Char.ofNat b.toNat]
  else if 0x20 ≤ b && b ≤ 0x7e then [Char.ofNat b.toNat]
  else "\\x".toList ++ [Nat.digitChar (b.toNat / 16), Nat.digitChar (b.toNat % 16)]

/-- The visible form of a byte string. -/
def visible (bytes : Bytes) : String := String.ofList (bytes.flatMap visibleByte)

/-- A text of printable characters as a string literal: quotes and backslashes stand behind a
backslash. -/
def quoted (text : String) : String :=
  "\"" ++ String.ofList (text.toList.flatMap escaped) ++ "\""
where
  /-- A character as it stands in a string literal. -/
  escaped (c : Char) : List Char :=
    if c.toNat == 0x22 || c.toNat == 0x5c then "\\".toList ++ [c] else [c]

/-- The text of a visible string has the characters of its bytes, one after another. -/
@[simp] theorem toList_visible (bytes : Bytes) :
    (visible bytes).toList = bytes.flatMap visibleByte := by
  simp [visible]

end LinearPattern
