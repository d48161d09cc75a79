import Mathlib
import LinearPattern.Match.Encoded
import LinearPattern.Proofs.Verdict

/-!
# Reading the numbers of a verdict

The sign of the data word says whether the pattern matched, as long as the position in the data is
below 2⁶³: the complement of such a position is negative.  So both positions of a verdict can be
read off its numbers again (`Verdict.dataEnd?_encode_matched`, `Verdict.mismatchAt?_encode_matched`
and the same for a mismatch).  The data word is the signed number of the verdict, in 64 bits
(`Verdict.dataWord_encode`).
-/

namespace LinearPattern

theorem toNat_ofNat_of_lt {n : Nat} (h : n < 2 ^ 63) : (UInt64.ofNat n).toNat = n :=
  UInt64.toNat_ofNat_of_lt' (Nat.lt_trans h (by decide))

namespace Encoded

variable {x : UInt64}

theorem toInt_of_lt (h : x.toNat < 2 ^ 63) : x.toInt64.toInt = x.toNat :=
  BitVec.toInt_eq_toNat_of_lt (x := x.toBitVec) (by rw [UInt64.toNat_toBitVec]; omega)

theorem isMatch_matched (p : UInt64) (h : x.toNat < 2 ^ 63) : (matched p x).isMatch = true := by
  have hx : (0 : Int64).toInt ≤ x.toInt64.toInt := by
    rw [toInt_of_lt h]
    exact Int.natCast_nonneg _
  exact decide_eq_true (Int64.le_iff_toInt_le.mpr hx)

theorem isMatch_iff (e : Encoded) : e.isMatch ↔ 0 ≤ e.dataWord.toInt := by
  rw [isMatch, decide_eq_true_iff, Int64.le_iff_toInt_le]
  rfl

theorem toInt_complement (x : Int64) : (complement x).toInt = -x.toInt - 1 := by
  have hlt := x.toInt_lt
  have hle := x.le_toInt
  rw [complement, Int64.toInt_not]
  exact Int.bmod_eq_of_le (by omega) (by omega)

/-- The complement of a position is negative. -/
theorem isMatch_mismatched (p : UInt64) (h : x.toNat < 2 ^ 63) :
    (mismatched p x).isMatch = false := by
  rw [Bool.eq_false_iff, ne_eq, isMatch_iff, mismatched, toInt_complement, toInt_of_lt h]
  omega

/-- The position that a signed number stands for: the number itself, or its complement. -/
def dataPos (e : Encoded) : Nat :=
  if 0 ≤ e.dataWord.toInt then e.dataWord.toInt.toNat else (-e.dataWord.toInt - 1).toNat

theorem toNat_toUInt64 {x : Int64} (h : 0 ≤ x.toInt) : x.toUInt64.toNat = x.toInt.toNat := by
  rw [Int64.toNat_toUInt64_of_le (Int64.le_iff_toInt_le.mpr h), Int64.toNat_toInt]

theorem mismatchAt?_of_nonneg {e : Encoded} (h : 0 ≤ e.dataWord.toInt) : e.mismatchAt? = none :=
  if_pos (e.isMatch_iff.mpr h)

theorem mismatchAt?_of_neg {e : Encoded} (h : ¬ 0 ≤ e.dataWord.toInt) :
    e.mismatchAt? = some (complement e.dataWord).toUInt64 :=
  if_neg (mt e.isMatch_iff.mp h)

theorem dataEnd?_of_nonneg {e : Encoded} (h : 0 ≤ e.dataWord.toInt) :
    e.dataEnd? = some e.dataWord.toUInt64 :=
  if_pos (e.isMatch_iff.mpr h)

/-- There is always one position, of a mismatch or of an end, and the number stands for it. -/
theorem mismatchAt?_or_dataEnd? (e : Encoded) :
    (e.mismatchAt?.or e.dataEnd?).elim 0 UInt64.toNat = e.dataPos := by
  by_cases h : 0 ≤ e.dataWord.toInt
  · rw [mismatchAt?_of_nonneg h, dataEnd?_of_nonneg h, dataPos, if_pos h]
    exact toNat_toUInt64 h
  · have hcomplement := toInt_complement e.dataWord
    rw [mismatchAt?_of_neg h, dataPos, if_neg h, ← hcomplement]
    exact toNat_toUInt64 (by omega)

end Encoded

namespace Verdict

/-- The data word has the signed number of the verdict, as far as it fits. -/
theorem dataWord_encode (v : Verdict) : v.encode.dataWord = Int64.ofInt v.dataNumber := by
  cases v with
  | matched p d =>
    show (UInt64.ofNat d).toInt64 = Int64.ofInt d
    rw [UInt64.toInt64_ofNat', Int64.ofInt_eq_ofNat]
  | mismatched p d =>
    show ~~~(UInt64.ofNat d).toInt64 = Int64.ofInt (-d - 1)
    rw [UInt64.toInt64_ofNat', Int64.not_eq_neg_sub, Int64.ofInt_sub, Int64.ofInt_neg,
      Int64.ofInt_eq_ofNat]
    rfl

variable {p d : Nat}

theorem dataEnd?_encode_matched (h : d < 2 ^ 63) :
    (matched p d).encode.dataEnd? = some (UInt64.ofNat d) := by
  rw [encode, Encoded.dataEnd?, Encoded.isMatch_matched _ ((toNat_ofNat_of_lt h).symm ▸ h),
    if_pos rfl]
  rfl

theorem mismatchAt?_encode_matched (h : d < 2 ^ 63) :
    (matched p d).encode.mismatchAt? = none := by
  rw [encode, Encoded.mismatchAt?, Encoded.isMatch_matched _ ((toNat_ofNat_of_lt h).symm ▸ h),
    if_pos rfl]

theorem dataEnd?_encode_mismatched (h : d < 2 ^ 63) :
    (mismatched p d).encode.dataEnd? = none := by
  rw [encode, Encoded.dataEnd?, Encoded.isMatch_mismatched _ ((toNat_ofNat_of_lt h).symm ▸ h),
    if_neg Bool.false_ne_true]

theorem mismatchAt?_encode_mismatched (h : d < 2 ^ 63) :
    (mismatched p d).encode.mismatchAt? = some (UInt64.ofNat d) := by
  rw [encode, Encoded.mismatchAt?, Encoded.isMatch_mismatched _ ((toNat_ofNat_of_lt h).symm ▸ h),
    if_neg Bool.false_ne_true, Encoded.mismatched, complement, complement, Int64.not_not,
    UInt64.toUInt64_toInt64]

end Verdict

end LinearPattern
