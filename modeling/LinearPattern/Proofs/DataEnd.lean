import LinearPattern.Proofs.Extent
import LinearPattern.Proofs.Resume

/-!
# Matches that start at the end of the data

With no data left, the first operator decides a match.  A guard in front of the run fails the match
if that operator needs a byte; everything else is left to the run, which looks for a close and for a
boundary before it looks for data.  The two never get in each other's way: the guard fails in front
of no close and no boundary, and the run fails nowhere (`verdict_block_at_end`).

* `ScansForNothing`, `AsksForData`: what the operator at a position asks for, read off the pattern
  around it (`needsData_iff`);
* `behindStop`: behind the close or the boundary that ends a block;
* `matchFrom_at_end`: the verdict of a match that starts at the end of the data.
-/

namespace LinearPattern

/-! ### Operators that ask for data -/

/-- A run of `~` starts at position `p`, and no item follows it in its block: a close does, or the
end of the pattern. -/
def ScansForNothing (pattern : Bytes) (p : Nat) : Prop :=
  ∃ n rest, pattern.drop p = List.replicate (n + 1) Byte.scan ++ rest ∧
    ∀ b, rest.head? = some b → b ∈ [Byte.groupClose, Byte.optionClose, Byte.setClose]

/-- The operator at position `p` matches only where there is a byte of data. -/
def AsksForData (pattern : Bytes) (p : Nat) : Prop :=
  (∃ b, pattern[p]? = some b ∧ b ∉ [Byte.groupClose, Byte.optionClose, Byte.setClose,
    Byte.boundary, Byte.plus, Byte.optionOpen]) ∧ ¬ScansForNothing pattern p

theorem Byte.isClose_iff_mem {b : UInt8} :
    isClose b ↔ b ∈ [groupClose, optionClose, setClose] := by
  rw [isClose, beq_iff_eq]
  constructor
  · intro h
    unfold Op.ofByte at h
    split at h <;> simp_all
  · intro h
    simp only [List.mem_cons, List.not_mem_nil, or_false] at h
    rcases h with rfl | rfl | rfl <;> rfl

/-- A block ends at a place just when a close comes next, if anything does. -/
theorem atBlockEnd_iff {ps : Bytes} :
    atBlockEnd ps ↔
      ∀ b, ps.head? = some b → b ∈ [Byte.groupClose, Byte.optionClose, Byte.setClose] := by
  cases ps with
  | nil => exact iff_of_true rfl nofun
  | cons b rest =>
    rw [atBlockEnd, Byte.isClose_iff_mem, List.head?_cons]
    exact ⟨fun h x hx => Option.some.inj hx ▸ h, fun h => h b rfl⟩

section

variable {pattern rest : Bytes} {b : UInt8} {p : Nat}

theorem getElem?_of_drop (h : pattern.drop p = b :: rest) : pattern[p]? = some b := by
  rw [← List.head?_drop, h, List.head?_cons]

/-- Behind the run of `~` there is what the scan looks for. -/
theorem scansForNothing_iff (h : pattern.drop p = Byte.scan :: rest) :
    ScansForNothing pattern p ↔ atBlockEnd (afterRun Byte.scan rest) := by
  constructor
  · rintro ⟨n, tail, hdrop, htail⟩
    rw [h, List.replicate_succ, List.cons_append, List.cons.injEq] at hdrop
    have hhead : tail.head? ≠ some Byte.scan := fun hscan =>
      absurd (htail _ hscan) (by decide)
    rw [hdrop.2, afterRun_replicate, afterRun_of_head?_ne hhead]
    exact atBlockEnd_iff.mpr htail
  · intro hend
    obtain ⟨n, hn⟩ := exists_replicate_append Byte.scan rest
    refine ⟨n, afterRun Byte.scan rest, ?_, atBlockEnd_iff.mp hend⟩
    rw [h, List.replicate_succ, List.cons_append, ← hn]

theorem not_scansForNothing (h : pattern.drop p = b :: rest) (hb : b ≠ Byte.scan) :
    ¬ScansForNothing pattern p := by
  rintro ⟨n, tail, hdrop, -⟩
  rw [h, List.replicate_succ, List.cons_append, List.cons.injEq] at hdrop
  exact hb hdrop.1

/-- The guard asks for data just where the operator does. -/
theorem needsData_iff (pattern : Bytes) (p : Nat) :
    needsData (pattern.drop p) ↔ AsksForData pattern p := by
  cases hdrop : pattern.drop p with
  | nil =>
    refine iff_of_false Bool.false_ne_true ?_
    rintro ⟨⟨b, hb, -⟩, -⟩
    rw [← List.head?_drop, hdrop] at hb
    cases hb
  | cons b rest =>
    have hfirst : AsksForData pattern p ↔ (Op.ofByte b).canFail ∧ ¬ScansForNothing pattern p := by
      rw [AsksForData, getElem?_of_drop hdrop, Op.canFail_iff_not_mem]
      simp only [Option.some.injEq, exists_eq_left']
    rw [hfirst]
    by_cases hscan : b = Byte.scan
    · subst hscan
      rw [scansForNothing_iff hdrop, Bool.not_eq_true, ← Bool.not_eq_true']
      exact (and_iff_right rfl).symm
    · rw [and_iff_left (not_scansForNothing hdrop hscan), needsData]
      cases hop : Op.ofByte b with
      | scan => exact absurd (Op.ofByte_eq_scan hop) hscan
      | _ => simp [Op.canFail]

end

/-! ### Runs with no data left -/

/-- The closes and the boundary: they end a block, also with no data left. -/
def Byte.stops : List UInt8 := [groupClose, optionClose, setClose, boundary]

/-- Behind the close or the boundary that comes next, if one of them does. -/
def behindStop : Bytes → Bytes
  | [] => []
  | b :: rest => if b ∈ Byte.stops then rest else b :: rest

theorem Byte.mem_stops {b : UInt8} :
    b ∈ stops ↔ Op.ofByte b = .close ∨ Op.ofByte b = .boundary := by
  constructor
  · intro h
    simp only [stops, List.mem_cons, List.not_mem_nil, or_false] at h
    rcases h with rfl | rfl | rfl | rfl
    · exact .inl rfl
    · exact .inl rfl
    · exact .inl rfl
    · exact .inr rfl
  · rintro (hc | hb)
    · have hclose := isClose_iff_mem.mp (beq_iff_eq.mpr hc)
      simp only [List.mem_cons, List.not_mem_nil, or_false] at hclose
      rcases hclose with rfl | rfl | rfl <;> decide
    · rw [Op.ofByte_eq_boundary hb]
      decide

variable {hopAt : Bytes → Option Hop} {data : Array UInt8} {d : Nat}

/-- With no data left, a block that is under way ends behind a close or a boundary, or where it
is. -/
theorem verdict_block_false_at_end (hd : data.size ≤ d) (pattern : Bytes) (room : Nat) (ps : Bytes)
    (ops : Option Nat) :
    (block hopAt data room false ps d ops).verdict pattern =
      .matched (pattern.length - (behindStop ps).length) d := by
  cases ps with
  | nil => rw [block_nil]; rfl
  | cons b rest =>
    rw [behindStop]
    split
    · next hstop =>
      rcases Byte.mem_stops.mp hstop with hc | hb
      · rw [block_close hc]
        rfl
      · rw [block_boundary hb]
        rfl
    · next hstop =>
      obtain ⟨hc, hb⟩ := not_or.mp (mt Byte.mem_stops.mpr hstop)
      rw [block_stop hc hb (.inl hd)]
      rfl

/-- At its start a block passes over a boundary first. -/
theorem verdict_block_at_end (hd : data.size ≤ d) (pattern : Bytes) (room : Nat) (ps : Bytes)
    (ops : Option Nat) :
    (block hopAt data room true ps d ops).verdict pattern =
      .matched (pattern.length - (behindStop (afterBoundary ps)).length) d := by
  rw [← verdict_block_false_at_end hd pattern room (afterBoundary ps) ops]
  cases ps with
  | nil => simp only [afterBoundary, block_nil]
  | cons b rest =>
    rw [afterBoundary]
    split
    · next hb => rw [block_boundary_start (by rw [beq_iff_eq.mp hb]; rfl)]
    · next hb =>
      have hop : Op.ofByte b ≠ .boundary := fun hop =>
        hb (beq_iff_eq.mpr (Op.ofByte_eq_boundary hop))
      rw [block_start hop true false]

/-- The position behind a stop. -/
theorem length_sub_behindStop {pattern : Bytes} {p : Nat} (hp : p ≤ pattern.length) :
    pattern.length - (behindStop (pattern.drop p)).length =
      if ∃ b ∈ Byte.stops, pattern[p]? = some b then p + 1 else p := by
  have hlength : (pattern.drop p).length = pattern.length - p := List.length_drop
  rw [← List.head?_drop]
  cases hdrop : pattern.drop p with
  | nil =>
    rw [hdrop, List.length_nil] at hlength
    rw [if_neg (by simp), behindStop, List.length_nil]
    omega
  | cons b rest =>
    rw [hdrop, List.length_cons] at hlength
    simp only [List.head?_cons, Option.some.injEq, exists_eq_right', behindStop]
    split
    · omega
    · rw [List.length_cons]
      omega

/-! ### Whole matches -/

/-- **At the end of the data the first operator decides.**  A match that starts there is a mismatch
at its first operator, behind a boundary that it starts with, if that operator asks for data and
there is a budget for it; and in all other cases it is a match that ends in front of that operator,
or behind it where it is a close or a boundary. -/
theorem matchFrom_at_end (bounds : Bounds) (pattern : Bytes) (p : Nat) {data : Array UInt8}
    {d : Nat} (hd : data.size ≤ d) :
    let start := min p pattern.length
    let first := if pattern[start]? = some Byte.boundary then start + 1 else start
    let fails := bounds.maxOps ≠ some 0 ∧ AsksForData pattern first
    (matchFrom bounds pattern p data d = .mismatched first data.size ↔ fails) ∧
      (¬fails → matchFrom bounds pattern p data d =
        .matched (if ∃ b ∈ Byte.stops, pattern[first]? = some b then first + 1 else first)
          data.size) := by
  intro start first fails
  have hplace : pattern.drop first = afterBoundary (pattern.drop p) := by
    rw [drop_first, drop_min_length]
  have hfirst : first ≤ pattern.length := by
    show (if _ then _ else _) ≤ _
    split
    · next hb => exact (List.getElem?_eq_some_iff.mp hb).1
    · exact Nat.min_le_right p pattern.length
  have hguard : (data.size = data.size ∧ bounds.maxOps ≠ some 0 ∧
      needsData (afterBoundary (pattern.drop p))) ↔ fails := by
    rw [← hplace, needsData_iff, and_iff_right rfl]
  have hmatched : ¬fails → matchFrom bounds pattern p data d =
      .matched (if ∃ b ∈ Byte.stops, pattern[first]? = some b then first + 1 else first)
        data.size := by
    intro h
    rw [matchFrom, matchUsing, Nat.min_eq_right hd, run, if_neg (mt hguard.mp h),
      verdict_block_at_end (Nat.le_refl _), ← hplace, length_sub_behindStop hfirst]
  refine ⟨⟨fun hv => ?_, fun h => ?_⟩, hmatched⟩
  · refine Classical.byContradiction fun h => ?_
    rw [hmatched h] at hv
    cases hv
  · rw [matchFrom, matchUsing, Nat.min_eq_right hd, run, if_pos (hguard.mpr h), ← hplace,
      Outcome.verdict, List.length_drop, Nat.sub_sub_self hfirst]

/-- Behind the end of two bytes of data, a scan behind a boundary looks for a digit and finds none,
and one with only a bracket behind it looks for nothing. -/
theorem matchFrom_at_end_scan :
    let data : Array UInt8 := #[104, 105]
    data.size ≤ 9 ∧
      AsksForData [97, 96, 126, 126, 35] 2 ∧
      matchFrom {} [97, 96, 126, 126, 35] 1 data 9 = .mismatched 2 2 ∧
      ¬AsksForData [97, 96, 126, 126, 93] 2 ∧
      matchFrom {} [97, 96, 126, 126, 93] 1 data 9 = .matched 2 2 := by
  intro data
  have hd : data.size ≤ 9 := by decide
  have hasks : AsksForData [97, 96, 126, 126, 35] 2 :=
    (needsData_iff [97, 96, 126, 126, 35] 2).mp (by decide +kernel)
  have hidle : ¬AsksForData [97, 96, 126, 126, 93] 2 :=
    mt (needsData_iff [97, 96, 126, 126, 93] 2).mpr (by decide +kernel)
  exact ⟨hd, hasks, (matchFrom_at_end {} [97, 96, 126, 126, 35] 1 hd).1.mpr ⟨by decide, hasks⟩,
    hidle, (matchFrom_at_end {} [97, 96, 126, 126, 93] 1 hd).2 fun h => hidle h.2⟩

end LinearPattern
