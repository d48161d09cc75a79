import LinearPattern.Op

/-!
# Classes of bytes

* the tests of one byte (`Byte.isPlain`, `Byte.isBlank`, …);
* `Byte.classWord`: the classes of a byte in one word.

The classes know ASCII only: a byte of 128 or more is in none of them.
-/

namespace LinearPattern.Byte

/-- One of the sixteen operators. -/
def isOperator (b : UInt8) : Bool := Op.ofByte b != .literal

/-- A printable ASCII byte that stands for itself. -/
def isPlain (b : UInt8) : Bool := !isOperator b && 0x20 ≤ b && b < 0x7f

/-- A space, a tab, a line feed or a carriage return. -/
def isBlank (b : UInt8) : Bool := b == 0x20 || b == 0x09 || b == 0x0a || b == 0x0d

/-- A line feed or a carriage return. -/
def isNewline (b : UInt8) : Bool := b == 0x0a || b == 0x0d

/-- An ASCII digit. -/
def isDigit (b : UInt8) : Bool := 0x30 ≤ b && b ≤ 0x39

/-- An ASCII letter of either case. -/
def isLetter (b : UInt8) : Bool := 0x41 ≤ b && b ≤ 0x5a || 0x61 ≤ b && b ≤ 0x7a

/-- A right parenthesis, bracket or brace. -/
def isClose (b : UInt8) : Bool := Op.ofByte b == .close

/-- A byte below 128. -/
def isAscii (b : UInt8) : Bool := b < 0x80

/-- The classes that have a bit in `classWord`, lowest bit first. -/
def classes : List (UInt8 → Bool) :=
  [isOperator, isPlain, isBlank, isNewline, isDigit, isLetter, isClose]

/-- The classes of a byte in one word. -/
def classWord (b : UInt8) : UInt8 :=
  classes.foldr (fun holds word => 2 * word + if holds b then 1 else 0) 0

end LinearPattern.Byte
