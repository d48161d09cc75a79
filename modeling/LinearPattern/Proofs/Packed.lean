import LinearPattern.Proofs.Encoded

/-!
# Two numbers in one word

The numbers of a verdict are packed into a word by their bits.  Here both directions are read as
arithmetic: the word is the position in the pattern times 2³², plus the data word modulo 2³²
(`pack?_eq_some_iff`), and it is unpacked by division, with a remainder from -2³¹ on for the data
word (`toNat_patternPos_unpack`, `toInt_dataWord_unpack`).  Division is unique, so packing is a
bijection between the numbers that fit and all words (`pack?_bijOn`).

* `Fits`: the numbers that have room in the two halves of a word;
* `pack?_eq_some_iff_unpack`: a word unpacks to the numbers that are packed into it, and to no
  others;
* `isMatch_unpack`: the highest bit of the low half says whether the pattern matched.
-/

namespace LinearPattern

namespace Encoded

variable {e : Encoded} {word : UInt64}

/-- The numbers have room in the halves of a word, the second one with its sign. -/
structure Fits (e : Encoded) : Prop where
  patternPos_lt : e.patternPos.toNat < 2 ^ 32
  le_dataWord : -2 ^ 31 ≤ e.dataWord.toInt
  dataWord_lt : e.dataWord.toInt < 2 ^ 31

theorem eq_of_toNat_eq_of_toInt_eq {e₁ e₂ : Encoded}
    (hp : e₁.patternPos.toNat = e₂.patternPos.toNat) (hd : e₁.dataWord.toInt = e₂.dataWord.toInt) :
    e₁ = e₂ := by
  cases e₁
  cases e₂
  rw [mk.injEq]
  exact ⟨UInt64.toNat_inj.mp hp, Int64.toInt_inj.mp hd⟩

/-! ### Packing -/

theorem toNat_append_halves (high low : BitVec 32) :
    (UInt64.ofBitVec (high ++ low)).toNat = high.toNat * 2 ^ 32 + low.toNat := by
  rw [UInt64.toNat_ofBitVec, BitVec.toNat_append, ← Nat.shiftLeft_add_eq_or_of_lt low.isLt,
    Nat.shiftLeft_eq]

/-- The low half of a signed number is the number modulo 2³², also of a negative one. -/
theorem toNat_lowHalf (x : Int64) : ((x.toBitVec.setWidth 32).toNat : Int) = x.toInt % 2 ^ 32 := by
  have htoInt : x.toInt = x.toBitVec.toInt := rfl
  rw [BitVec.toNat_setWidth, htoInt, BitVec.toInt_eq_toNat_cond]
  split <;> omega

theorem pack?_of_fits (h : e.Fits) :
    e.pack? = some (UInt64.ofBitVec
      (e.patternPos.toBitVec.setWidth 32 ++ e.dataWord.toBitVec.setWidth 32)) :=
  if_pos ⟨h.patternPos_lt, h.le_dataWord, h.dataWord_lt⟩

theorem isSome_pack?_iff : e.pack?.isSome ↔ e.Fits := by
  constructor
  · intro h
    unfold pack? at h
    split at h
    next hroom => exact ⟨hroom.1, hroom.2.1, hroom.2.2⟩
    next => cases h
  · intro h
    rw [pack?_of_fits h]
    rfl

/-- Numbers that fit are packed into the word that has the one times 2³² and the other modulo
2³². -/
theorem pack?_eq_some_iff :
    e.pack? = some word ↔
      e.Fits ∧ (word.toNat : Int) = e.patternPos.toNat * 2 ^ 32 + e.dataWord.toInt % 2 ^ 32 := by
  have hlow := toNat_lowHalf e.dataWord
  have hnumber := toNat_append_halves (e.patternPos.toBitVec.setWidth 32)
    (e.dataWord.toBitVec.setWidth 32)
  rw [BitVec.toNat_setWidth, UInt64.toNat_toBitVec] at hnumber
  constructor
  · intro h
    have hfits := isSome_pack?_iff.mp (Option.isSome_of_eq_some h)
    rw [pack?_of_fits hfits, Option.some.injEq] at h
    rw [h, Nat.mod_eq_of_lt hfits.patternPos_lt] at hnumber
    exact ⟨hfits, by omega⟩
  · rintro ⟨hfits, hword⟩
    rw [Nat.mod_eq_of_lt hfits.patternPos_lt] at hnumber
    rw [pack?_of_fits hfits, Option.some.injEq, ← UInt64.toNat_inj]
    omega

/-! ### Unpacking -/

theorem toNat_patternPos_unpack (word : UInt64) :
    (unpack word).patternPos.toNat = word.toNat / 2 ^ 32 := by
  have hword := word.toNat_lt
  rw [unpack, UInt64.toNat_ofBitVec, BitVec.toNat_setWidth_of_le (by decide),
    BitVec.extractLsb'_toNat, UInt64.toNat_toBitVec, Nat.shiftRight_eq_div_pow]
  omega

theorem toInt_dataWord_unpack (word : UInt64) :
    (unpack word).dataWord.toInt = (word.toNat : Int).bmod (2 ^ 32) := by
  show ((word.toBitVec.setWidth 32).signExtend 64).toInt = _
  rw [BitVec.toInt_signExtend_of_le (by decide), BitVec.toInt_setWidth, UInt64.toNat_toBitVec]

/-- Whatever the word is, its halves are not too large. -/
theorem fits_unpack (word : UInt64) : (unpack word).Fits := by
  have hword := word.toNat_lt
  have hpos := toNat_patternPos_unpack word
  have hdata := toInt_dataWord_unpack word
  have hle := Int.le_bmod (x := word.toNat) (m := 2 ^ 32) (by decide)
  have hlt := Int.bmod_lt (x := word.toNat) (m := 2 ^ 32) (by decide)
  constructor <;> omega

theorem pack?_unpack (word : UInt64) : (unpack word).pack? = some word := by
  have hmod : (unpack word).dataWord.toInt % 2 ^ 32 = word.toNat % 2 ^ 32 := by
    rw [toInt_dataWord_unpack]
    exact Int.bmod_emod
  refine pack?_eq_some_iff.mpr ⟨fits_unpack word, ?_⟩
  rw [hmod, toNat_patternPos_unpack]
  omega

/-- A data word that fits is found again by its remainder. -/
theorem Fits.bmod_dataWord (h : e.Fits) : e.dataWord.toInt.bmod (2 ^ 32) = e.dataWord.toInt :=
  Int.bmod_eq_of_le h.le_dataWord h.dataWord_lt

theorem unpack_of_pack? (h : e.pack? = some word) : unpack word = e := by
  obtain ⟨hfits, hword⟩ := pack?_eq_some_iff.mp h
  apply eq_of_toNat_eq_of_toInt_eq
  · rw [toNat_patternPos_unpack]
    omega
  · calc (unpack word).dataWord.toInt
        = (word.toNat : Int).bmod (2 ^ 32) := toInt_dataWord_unpack word
      _ = (e.dataWord.toInt % 2 ^ 32).bmod (2 ^ 32) := by
          rw [hword]
          exact Int.mul_add_bmod_self_right _ (2 ^ 32) _
      _ = e.dataWord.toInt.bmod (2 ^ 32) := Int.emod_bmod _ (2 ^ 32)
      _ = e.dataWord.toInt := hfits.bmod_dataWord

/-- A word unpacks to the numbers that are packed into it, and to no others. -/
theorem pack?_eq_some_iff_unpack : e.pack? = some word ↔ unpack word = e := by
  constructor
  · exact unpack_of_pack?
  · rintro rfl
    exact pack?_unpack word

/-- The sign of the data word is the highest bit of the low half. -/
theorem isMatch_unpack (word : UInt64) :
    (unpack word).isMatch ↔ word.toNat % 2 ^ 32 < 2 ^ 31 := by
  rw [isMatch_iff, toInt_dataWord_unpack, Int.bmod_def]
  split <;> omega

/-- **Packing is a bijection between the numbers that fit and all words**, and unpacking is its
inverse.  Numbers that do not fit are not packed, and a mismatch is told from a match by one bit. -/
theorem pack?_bijOn :
    Set.BijOn pack? {e | e.Fits} (Set.range some) ∧
      (∀ e : Encoded, e.pack?.isSome ↔ e.Fits) ∧
      (∀ (e : Encoded) (word : UInt64), e.pack? = some word ↔ unpack word = e) ∧
      ∀ word : UInt64, (unpack word).isMatch ↔ word.toNat % 2 ^ 32 < 2 ^ 31 := by
  refine ⟨⟨?mapsTo, ?injOn, ?surjOn⟩, fun _ => isSome_pack?_iff,
    fun _ _ => pack?_eq_some_iff_unpack, isMatch_unpack⟩
  case mapsTo =>
    intro e he
    exact ⟨_, (pack?_of_fits he).symm⟩
  case injOn =>
    intro e₁ he₁ e₂ _ heq
    obtain ⟨word, hword⟩ := Option.isSome_iff_exists.mp (isSome_pack?_iff.mpr he₁)
    rw [← unpack_of_pack? hword, ← unpack_of_pack? (heq.symm.trans hword)]
  case surjOn =>
    rintro _ ⟨word, rfl⟩
    exact ⟨unpack word, fits_unpack word, pack?_unpack word⟩

/-- The widest numbers: the bits of the negative one do not reach into the high half. -/
example : pack? ⟨0xFFFFFFFE, -0x80000000⟩ = some 0xFFFFFFFE80000000 := by decide

end Encoded

end LinearPattern
