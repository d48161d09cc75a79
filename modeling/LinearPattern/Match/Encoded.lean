import LinearPattern.Match.Verdict

/-!
# Verdicts as numbers

A verdict is handed on as two numbers: the position in the pattern, and a signed number for the
position in the data.  A match has the position itself, a mismatch its bitwise complement, which is
negative.  Where both numbers are small enough, they fit into one word.

* `complement`, `Encoded`, `Verdict.encode`;
* `Encoded.isMatch`, `Encoded.dataEnd?`, `Encoded.mismatchAt?`;
* `Encoded.pack?`, `Encoded.unpack`: the pattern position in the high half of a word, the signed
  data position in the low half.

Positions are words of 64 bits.  A position of 2⁶³ or more wraps around to a negative number.
-/

namespace LinearPattern

/-- The bitwise complement, `-x - 1`, which stands for a mismatch at `x`. -/
def complement (x : Int64) : Int64 := ~~~x

/-- The two numbers of a verdict. -/
structure Encoded where
  /-- The position in the pattern. -/
  patternPos : UInt64
  /-- The position in the data, or the complement of it on a mismatch. -/
  dataWord : Int64
  deriving DecidableEq

namespace Encoded

/-- The numbers of a match. -/
def matched (p d : UInt64) : Encoded := ⟨p, d.toInt64⟩

/-- The numbers of a mismatch. -/
def mismatched (p d : UInt64) : Encoded := ⟨p, complement d.toInt64⟩

/-- The numbers stand for a match. -/
def isMatch (e : Encoded) : Bool := 0 ≤ e.dataWord

/-- The data position behind a match. -/
def dataEnd? (e : Encoded) : Option UInt64 :=
  if e.isMatch then some e.dataWord.toUInt64 else none

/-- The data position of a mismatch. -/
def mismatchAt? (e : Encoded) : Option UInt64 :=
  if e.isMatch then none else some (complement e.dataWord).toUInt64

/-- Both numbers in one word, if each of them fits into a half of it. -/
def pack? (e : Encoded) : Option UInt64 :=
  if e.patternPos.toNat < 0x100000000 ∧ -0x80000000 ≤ e.dataWord.toInt ∧
      e.dataWord.toInt < 0x80000000 then
    some (UInt64.ofBitVec
      (e.patternPos.toBitVec.setWidth 32 ++ e.dataWord.toBitVec.setWidth 32))
  else none

/-- The two numbers in a word. -/
def unpack (word : UInt64) : Encoded where
  patternPos := UInt64.ofBitVec ((word.toBitVec.extractLsb' 32 32).setWidth 64)
  dataWord := Int64.ofBitVec ((word.toBitVec.setWidth 32).signExtend 64)

end Encoded

/-- The numbers of a verdict. -/
def Verdict.encode : Verdict → Encoded
  | .matched p d => .matched (UInt64.ofNat p) (UInt64.ofNat d)
  | .mismatched p d => .mismatched (UInt64.ofNat p) (UInt64.ofNat d)

end LinearPattern
