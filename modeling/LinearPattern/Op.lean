/-!
# The operators of the pattern language

A pattern is a byte string that is read as it stands: every byte is either one of sixteen
operators or stands for itself.

* `Bytes`, and the operator bytes by name (`Byte.plus`, `Byte.scan`, …);
* `Op`, what a pattern byte asks for, and `Op.ofByte`.

The three closes are one operator: each of them ends the innermost block.
-/

namespace LinearPattern

/-- A byte string. -/
abbrev Bytes := List UInt8

/-! ### Operator bytes -/

namespace Byte

/-- The backslash: the next byte stands for itself. -/
@[match_pattern] abbrev escape : UInt8 := 0x5c
/-- The question mark: any byte. -/
@[match_pattern] abbrev any : UInt8 := 0x3f
/-- The caret: a byte that is not blank. -/
@[match_pattern] abbrev nonBlank : UInt8 := 0x5e
/-- The underscore: a blank. -/
@[match_pattern] abbrev blank : UInt8 := 0x5f
/-- The dollar sign: a line feed or a carriage return. -/
@[match_pattern] abbrev newline : UInt8 := 0x24
/-- The at sign: an ASCII letter. -/
@[match_pattern] abbrev letter : UInt8 := 0x40
/-- The number sign: an ASCII digit. -/
@[match_pattern] abbrev digit : UInt8 := 0x23
/-- The left brace opens a set. -/
@[match_pattern] abbrev setOpen : UInt8 := 0x7b
/-- The right brace closes a set. -/
@[match_pattern] abbrev setClose : UInt8 := 0x7d
/-- The left parenthesis opens a group. -/
@[match_pattern] abbrev groupOpen : UInt8 := 0x28
/-- The right parenthesis closes a group. -/
@[match_pattern] abbrev groupClose : UInt8 := 0x29
/-- The left bracket opens an option. -/
@[match_pattern] abbrev optionOpen : UInt8 := 0x5b
/-- The right bracket closes an option. -/
@[match_pattern] abbrev optionClose : UInt8 := 0x5d
/-- The plus sign: repeat the element before it. -/
@[match_pattern] abbrev plus : UInt8 := 0x2b
/-- The tilde: move on to the first place where the next element matches. -/
@[match_pattern] abbrev scan : UInt8 := 0x7e
/-- The grave accent: a boundary. -/
@[match_pattern] abbrev boundary : UInt8 := 0x60
/-- The minus sign, which joins two members of a set into a range. -/
@[match_pattern] abbrev dash : UInt8 := 0x2d

end Byte

/-- What a pattern byte asks for. -/
inductive Op
  /-- The data byte equals the pattern byte. -/
  | literal
  /-- Any data byte. -/
  | any
  /-- A data byte that is not blank. -/
  | nonBlank
  /-- A blank. -/
  | blank
  /-- A line feed or a carriage return. -/
  | newline
  /-- An ASCII letter. -/
  | letter
  /-- An ASCII digit. -/
  | digit
  /-- The data byte equals the pattern byte that follows. -/
  | escape
  /-- A member of the set whose body follows. -/
  | set
  /-- The block that follows. -/
  | group
  /-- The block that follows, or nothing. -/
  | option
  /-- The element before, again and again. -/
  | plus
  /-- The first place where the element that follows matches. -/
  | scan
  /-- Nothing at the start of a block, the end of the match elsewhere. -/
  | boundary
  /-- The end of a block. -/
  | close
  deriving DecidableEq

/-- The operator a byte stands for; every other byte is a literal. -/
def Op.ofByte : UInt8 → Op
  | Byte.escape => .escape
  | Byte.any => .any
  | Byte.nonBlank => .nonBlank
  | Byte.blank => .blank
  | Byte.newline => .newline
  | Byte.letter => .letter
  | Byte.digit => .digit
  | Byte.setOpen => .set
  | Byte.groupOpen => .group
  | Byte.optionOpen => .option
  | Byte.plus => .plus
  | Byte.scan => .scan
  | Byte.boundary => .boundary
  | Byte.setClose => .close
  | Byte.groupClose => .close
  | Byte.optionClose => .close
  | _ => .literal

end LinearPattern
