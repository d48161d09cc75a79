import LinearPattern.Proofs.Encoded
import LinearPattern.Proofs.Indexed.Run
import LinearPattern.Proofs.Verdict

/-!
# A match stays in range

A whole match by positions, wherever in the pattern and the data it is started
(`Indexed.matchFrom`).  It comes to the verdict of the match by places, so nothing it asks for is
out of range (`Indexed.matchFrom_eq`); and what its verdict says as two numbers is in range as well
(`matchFrom_inRange`).
-/

namespace LinearPattern

namespace Indexed

/-- Whether the operator at `p` needs a data byte to match. -/
def needsData (pattern : Bytes) (p : Nat) : Except OutOfRange Bool :=
  match pattern[p]? with
  | none => return false
  | some b =>
    match Op.ofByte b with
    | .option => return false
    | .boundary => return false
    | .plus => return false
    | .close => return false
    | .scan => do return !atBlockEnd pattern (← runEnd (· == Byte.scan) pattern (p + 1))
    | _ => return true

/-- The verdict of a run by positions. -/
def Outcome.verdict : Outcome → Verdict
  | .reached p d => .matched p d
  | .ended p d => .matched p d
  | .failed p d => .mismatched p d

theorem verdict_positions (pattern : Bytes) (o : LinearPattern.Outcome) :
    (positions pattern o).verdict = o.verdict pattern := by
  cases o <;> rfl

/-- Matches a pattern from position `p` on against the data from position `d` on.  A position past
the end is taken as the end. -/
def matchFrom (bounds : Bounds) (pattern : Bytes) (p : Nat) (data : Array UInt8) (d : Nat) :
    Except OutOfRange Verdict := do
  let p := min p pattern.length
  let d := min d data.size
  let first := if pattern[p]? = some Byte.boundary then p + 1 else p
  let exhausted ←
    if d = data.size ∧ bounds.maxOps ≠ some 0 then needsData pattern first else pure false
  if exhausted then return .mismatched first d
  else return (← block pattern data bounds.nesting true p d bounds.maxOps).verdict

theorem needsData_eq (pattern : Bytes) (p : Nat) :
    needsData pattern p = .ok (LinearPattern.needsData (pattern.drop p)) := by
  rw [needsData, ← List.head?_drop]
  cases hdrop : pattern.drop p with
  | nil => rfl
  | cons b rest =>
    rw [List.head?_cons, LinearPattern.needsData]
    cases hop : Op.ofByte b with
    | scan =>
      simp only [hop]
      rw [runEnd_eq _ (lt_of_drop hdrop), ok_bind, atBlockEnd_eq, drop_succ_of_drop hdrop,
        drop_of_suffix_rest hdrop (List.dropWhile_suffix _)]
      rfl
    | _ => simp only [hop, pure_eq_ok]

/-- A match by positions asks for nothing that is out of range, and comes to the verdict of the
match by places. -/
theorem matchFrom_eq (bounds : Bounds) (pattern : Bytes) (p : Nat) (data : Array UInt8) (d : Nat) :
    matchFrom bounds pattern p data d = .ok (LinearPattern.matchFrom bounds pattern p data d) := by
  have hfirst := drop_first pattern (min p pattern.length)
  have hblock := block_eq pattern data (Nat.min_le_right p pattern.length) bounds.nesting true
    (min d data.size) bounds.maxOps
  rw [drop_min_length] at hfirst hblock
  rw [matchFrom, LinearPattern.matchFrom, matchUsing, run]
  simp only [needsData_eq, hfirst, hblock, ok_bind, pure_eq_ok]
  by_cases hguard : min d data.size = data.size ∧ bounds.maxOps ≠ some 0
  · rw [if_pos hguard]
    by_cases hneeds : LinearPattern.needsData (afterBoundary (pattern.drop p))
    · -- there is an operator that needs data, so its position is that of its place
      rw [if_pos hneeds, if_pos (c := _ ∧ _ ∧ _) ⟨hguard.1, hguard.2, hneeds⟩,
        LinearPattern.Outcome.verdict]
      cases hplace : afterBoundary (pattern.drop p) with
      | nil =>
        rw [hplace] at hneeds
        cases hneeds
      | cons b rest => rw [position_of_drop (hfirst.trans hplace)]
    · rw [if_neg hneeds, if_neg (c := _ ∧ _ ∧ _) fun h => hneeds h.2.2, verdict_positions]
  · rw [if_neg hguard, if_neg (c := _ ∧ _ ∧ _) fun h => hguard ⟨h.1, h.2.1⟩, verdict_positions]
    rfl

end Indexed

/-- What the numbers of a match of a pattern from position `p` on against data from position `d` on
stay within. -/
structure Encoded.InRange (pattern : Bytes) (p : Nat) (data : Array UInt8) (d : Nat) (r : Encoded) :
    Prop where
  /-- The pattern matched: both ends are in range, and not before the starts. -/
  matched : ∀ e, r.dataEnd? = some e →
    min p pattern.length ≤ r.patternPos.toNat ∧ r.patternPos.toNat ≤ pattern.length ∧
      min d data.size ≤ e.toNat ∧ e.toNat ≤ data.size
  /-- It did not: an operator that can fail is to blame, in front of a byte of the data unless there
  was none to start with. -/
  mismatched : ∀ e, r.mismatchAt? = some e →
    min p pattern.length ≤ r.patternPos.toNat ∧ r.patternPos.toNat < pattern.length ∧
      min d data.size ≤ e.toNat ∧
      (if min d data.size = data.size then e.toNat = data.size else e.toNat < data.size) ∧
      ∃ b, pattern[r.patternPos.toNat]? = some b ∧
        b ∉ [Byte.groupClose, Byte.optionClose, Byte.setClose, Byte.boundary, Byte.plus,
          Byte.optionOpen]

theorem matchFrom_encode_inRange (bounds : Bounds) {pattern : Bytes} {data : Array UInt8}
    (hpattern : pattern.length < 2 ^ 63) (hdata : data.size < 2 ^ 63) (p d : Nat) :
    (matchFrom bounds pattern p data d).encode.InRange pattern p data d := by
  cases hv : matchFrom bounds pattern p data d with
  | matched pn e =>
    obtain ⟨hp, hpn, hd, he⟩ := matchUsing_matched hv
    have hsmall := Nat.lt_of_le_of_lt he hdata
    refine ⟨fun x hx => ?_, fun x hx => ?_⟩
    · rw [Verdict.dataEnd?_encode_matched hsmall] at hx
      obtain rfl := Option.some.inj hx
      show _ ≤ (UInt64.ofNat pn).toNat ∧ (UInt64.ofNat pn).toNat ≤ _ ∧ _
      rw [toNat_ofNat_of_lt hsmall, toNat_ofNat_of_lt (Nat.lt_of_le_of_lt hpn hpattern)]
      exact ⟨hp, hpn, hd, he⟩
    · rw [Verdict.mismatchAt?_encode_matched hsmall] at hx
      cases hx
  | mismatched pn e =>
    obtain ⟨hp, hpn, hd, hleft, b, hb, hfail⟩ := matchUsing_mismatched hv
    have he : e ≤ data.size := by
      split at hleft
      · exact Nat.le_of_eq hleft
      · exact Nat.le_of_lt hleft
    have hsmall := Nat.lt_of_le_of_lt he hdata
    refine ⟨fun x hx => ?_, fun x hx => ?_⟩
    · rw [Verdict.dataEnd?_encode_mismatched hsmall] at hx
      cases hx
    · rw [Verdict.mismatchAt?_encode_mismatched hsmall] at hx
      obtain rfl := Option.some.inj hx
      show _ ≤ (UInt64.ofNat pn).toNat ∧ (UInt64.ofNat pn).toNat < _ ∧ _ ∧ _ ∧
        ∃ b, pattern[(UInt64.ofNat pn).toNat]? = some b ∧ _
      rw [toNat_ofNat_of_lt hsmall, toNat_ofNat_of_lt (Nat.lt_trans hpn hpattern)]
      exact ⟨hp, hpn, hd, hleft, b, hb, Op.canFail_iff_not_mem.mp hfail⟩

/-- A match asks for no byte and no run of bytes that is out of range, wherever it is started, and
the numbers of its verdict stay in range: an end is not before the start, and a mismatch points at
an operator that can fail. -/
theorem matchFrom_inRange (bounds : Bounds) {pattern : Bytes} {data : Array UInt8}
    (hpattern : pattern.length < 2 ^ 63) (hdata : data.size < 2 ^ 63) (p d : Nat) :
    Indexed.matchFrom bounds pattern p data d = .ok (matchFrom bounds pattern p data d) ∧
      (matchFrom bounds pattern p data d).encode.InRange pattern p data d :=
  ⟨Indexed.matchFrom_eq bounds pattern p data d,
    matchFrom_encode_inRange bounds hpattern hdata p d⟩

/-- The scan of `~(ab{x\` tries its group where `xab-` shows the run `ab`.  The set that the pattern
leaves open, with half a member at the end, does not hold the byte behind it. -/
theorem matchFrom_inRange_unclosed :
    let pattern : Bytes := [126, 40, 97, 98, 123, 120, 92]
    let data : Array UInt8 := #[120, 97, 98, 45]
    (pattern.length < 2 ^ 63 ∧ data.size < 2 ^ 63) ∧
      Indexed.matchFrom {} pattern 0 data 1 = .ok (.mismatched 0 1) ∧
      (Verdict.mismatched 0 1).encode.InRange pattern 0 data 1 := by
  intro pattern data
  have hpattern : pattern.length < 2 ^ 63 := by decide
  have hdata : data.size < 2 ^ 63 := by decide
  have hv : matchFrom {} pattern 0 data 1 = .mismatched 0 1 := by decide +kernel
  have h := matchFrom_inRange {} hpattern hdata 0 1
  rw [hv] at h
  exact ⟨⟨hpattern, hdata⟩, h⟩

end LinearPattern
