import LinearPattern.Op

/-!
# Masks of bytes

A mask is a word of 64 bits that stands for a set of bytes, as far as 64 bits can: bytes that share
a bit are in a mask together.

* `Byte.slot`, `Byte.bit`: the bit of a byte;
* `maskOf`: the mask of the bytes of a run.
-/

namespace LinearPattern

namespace Byte

/-- The bit of a byte in a mask.  The bytes 32 to 95 have the bits 0 to 63 in order, and 96 to 127
share those of 64 to 95, so that a letter has the same bit in both cases; all other bytes wrap
around. -/
def slot (b : UInt8) : Nat := ((if 0x60 ≤ b then b &&& 0xdf else b) - 0x20).toNat % 64

/-- The mask with the bit of `b` alone. -/
def bit (b : UInt8) : UInt64 := 1 <<< UInt64.ofNat (slot b)

end Byte

/-- The mask of all bytes of a run. -/
def maskOf (run : Bytes) : UInt64 := run.foldl (fun mask b => mask ||| Byte.bit b) 0

end LinearPattern
