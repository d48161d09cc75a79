import LinearPattern.Byte.Class

/-!
# Patterns for literal byte strings

`literalPattern s` matches `s` byte for byte: every operator in it stands behind a backslash.
-/

namespace LinearPattern

/-- One byte of a literal, written as a pattern. -/
def literalByte (b : UInt8) : Bytes := if Byte.isOperator b then [Byte.escape, b] else [b]

/-- The pattern that matches a byte string and nothing else. -/
def literalPattern (literal : Bytes) : Bytes := literal.flatMap literalByte

end LinearPattern
