import LinearPattern.Proofs.Hop
import LinearPattern.Proofs.Indexed.Extent

/-!
# Hops, found by position

The run of a hop is cut out of the pattern between two positions (`hopAt`), and the data is asked
for the byte at the end of a stride and for the bytes that a run would cover (`seek`, `next`).  A
stride ends in front of the end of the data, a candidate is followed by as many bytes as the run is
long, and the bytes that are left behind the last stride are fewer than that; so no request is out
of range, and what is found is what `Hop.of?` and `Hop.next` find (`hopAt_eq`, `next_eq`).
-/

namespace LinearPattern.Indexed

/-! ### Cutting out the run -/

/-- The hop over a run, unless the run is empty. -/
def hopOver? (run : Bytes) : Option Hop :=
  if h : run = [] then none else some { run, run_ne_nil := h }

theorem hopOver?_leadingRun (ps : Bytes) : hopOver? (Hop.leadingRun ps) = Hop.of? ps := by
  unfold Hop.of?
  split
  · next h => rw [h, hopOver?, dif_pos rfl]
  · next b run h => rw [h, hopOver?, dif_neg (List.cons_ne_nil b run)]

/-- The hop for the element at `p`, if it starts with plain bytes. -/
def hopAt (pattern : Bytes) (p : Nat) : Except OutOfRange (Option Hop) :=
  match pattern[p]? with
  | none => return none
  | some b =>
    if b == Byte.groupOpen then do
      let start ← runEnd (· == Byte.groupOpen) pattern p
      let stop ← runEnd Byte.isPlain pattern start
      if start = stop then return none else return hopOver? (← slice pattern start stop)
    else if Byte.isPlain b then do return hopOver? (← slice pattern p (p + 1))
    else return none

section

variable (test : UInt8 → Bool) {pattern : Bytes} {start : Nat}

/-- How long the run of bytes is that satisfy a test. -/
theorem runEnd_sub (h : start ≤ pattern.length) :
    pattern.length - ((pattern.drop start).dropWhile test).length - start =
      ((pattern.drop start).takeWhile test).length := by
  have hlen := congrArg List.length (List.takeWhile_append_dropWhile (p := test)
    (l := pattern.drop start))
  rw [List.length_append, List.length_drop] at hlen
  omega

/-- A run of bytes that satisfy a test is cut out between its ends. -/
theorem slice_run (h : start ≤ pattern.length) :
    slice pattern start (pattern.length - ((pattern.drop start).dropWhile test).length) =
      .ok ((pattern.drop start).takeWhile test) := by
  have hlen := (List.dropWhile_suffix test (l := pattern.drop start)).length_le
  rw [List.length_drop] at hlen
  rw [slice_eq (by omega) (Nat.sub_le _ _), runEnd_sub test h,
    ← List.prefix_iff_eq_take.mp (List.takeWhile_prefix test)]

end

theorem hopAt_eq (pattern : Bytes) (p : Nat) :
    hopAt pattern p = .ok (Hop.of? (pattern.drop p)) := by
  rw [hopAt, ← List.head?_drop, ← hopOver?_leadingRun]
  cases hdrop : pattern.drop p with
  | nil => rfl
  | cons b rest =>
    have hlt := lt_of_drop hdrop
    rw [List.head?_cons, Hop.leadingRun]
    simp only
    split
    · next hb =>
      have hopens : Hop.leadingRun.afterOpens rest =
          (b :: rest).dropWhile (· == Byte.groupOpen) := by
        rw [List.dropWhile_cons, if_pos hb, Hop.leadingRun.afterOpens]
      have hsuffix : Hop.leadingRun.afterOpens rest <:+ rest := List.dropWhile_suffix _
      have hstart := drop_of_suffix_rest hdrop hsuffix
      rw [runEnd_eq _ (Nat.le_of_lt hlt), hdrop, ← hopens, ok_bind,
        runEnd_eq _ (Nat.sub_le _ _), ok_bind, slice_run _ (Nat.sub_le _ _), hstart]
      split
      · -- no byte to cut out: the run of the place is empty, too
        next hempty =>
        have hrun := runEnd_sub Byte.isPlain
          (Nat.sub_le pattern.length (Hop.leadingRun.afterOpens rest).length)
        rw [hstart, ← hempty, Nat.sub_self] at hrun
        rw [List.length_eq_zero_iff.mp hrun.symm]
        rfl
      · rfl
    · split
      · rw [slice_eq (Nat.le_add_right p 1) hlt, hdrop, Nat.add_sub_cancel_left]
        rfl
      · rfl

/-! ### Looking for the run -/

/-- The first position from `i` on and below `size` that satisfies a test, or `size`. -/
def firstFrom (test : Nat → Except OutOfRange Bool) (size i : Nat) : Except OutOfRange Nat :=
  if i < size then do
    if ← test i then return i else firstFrom test size (i + 1)
  else return size
termination_by size - i

theorem firstFrom_eq {test : Nat → Except OutOfRange Bool} {test' : Nat → Bool} {size i : Nat}
    (h : ∀ j, i ≤ j → j < size → test j = .ok (test' j)) :
    firstFrom test size i = .ok (LinearPattern.firstFrom test' size i) := by
  rw [firstFrom, LinearPattern.firstFrom]
  split
  · next hi =>
    rw [h i (Nat.le_refl i) hi, ok_bind]
    split
    · rfl
    · exact firstFrom_eq fun j hj => h j (Nat.le_of_succ_le hj)
  · rfl
termination_by size - i

/-- Whether the data shows the whole run from `i` on: its first byte is looked at before the
rest. -/
def showsRun (hop : Hop) (data : Array UInt8) (i : Nat) : Except OutOfRange Bool := do
  if (← byteAt data.toList i) == (← byteAt hop.run 0) then
    return (← slice data.toList i (i + hop.length)) == hop.run
  else return false

/-- Whether the data from `i` on is the beginning of the run. -/
def showsTail (hop : Hop) (data : Array UInt8) (i : Nat) : Except OutOfRange Bool := do
  let tail ← slice data.toList i data.size
  return tail == (← slice hop.run 0 tail.length)

/-- The next position from `i` on where the run fits, looking at every `k`-th byte while a whole run
of `k` bytes is left. -/
def seek (hop : Hop) (data : Array UInt8) (i : Nat) : Except OutOfRange Nat :=
  if i + hop.length ≤ data.size then do
    let probe := i + hop.length - 1
    if hop.hits (← byteAt data.toList probe) then
      let last := min probe (data.size - hop.length)
      let found ← firstFrom (showsRun hop data) (last + 1) i
      if found ≤ last then return found else seek hop data (last + 1)
    else seek hop data (i + hop.length)
  else firstFrom (showsTail hop data) data.size i
termination_by data.size - i
decreasing_by
  all_goals
    have := hop.length_pos
    omega

/-- The next position from `i` on where the run fits, or the end of the data.  A run of one byte is
looked for in the rest of the data. -/
def next (hop : Hop) (data : Array UInt8) (i : Nat) : Except OutOfRange Nat :=
  if data.size ≤ i then return data.size
  else if hop.length = 1 then do
    let b ← byteAt hop.run 0
    let rest ← slice data.toList i data.size
    return (rest.idxOf? b).elim data.size (i + ·)
  else seek hop data i

theorem byteAt_toList {data : Array UInt8} {i : Nat} (h : i < data.size) :
    byteAt data.toList i = .ok data[i] := byteAt_of_drop (drop_toList h)

theorem byteAt_eq_getD {data : Array UInt8} {i : Nat} (h : i < data.size) :
    byteAt data.toList i = .ok (data.getD i 0) := by
  rw [byteAt_toList h, Array.getElem_eq_getD 0]

theorem slice_rest {data : Array UInt8} {i : Nat} (h : i ≤ data.size) :
    slice data.toList i data.size = .ok (data.toList.drop i) := by
  rw [slice_eq h (Nat.le_of_eq Array.length_toList.symm), List.take_of_length_le]
  exact Nat.le_of_eq (by rw [List.length_drop, Array.length_toList])

variable {hop : Hop} {data : Array UInt8} {i : Nat}

theorem showsRun_eq (h : i + hop.length ≤ data.size) :
    showsRun hop data i = .ok (hop.fits data i) := by
  have hpos := hop.length_pos
  have hi : i < data.size := by omega
  have hslice : slice data.toList i (i + hop.length) =
      .ok ((data.toList.drop i).take hop.run.length) := by
    rw [slice_eq (Nat.le_add_right i _) (by simpa using h), Nat.add_sub_cancel_left]
    rfl
  have hfits : hop.fits data i = ((data.toList.drop i).take hop.run.length == hop.run) := by
    rw [Hop.fits, Hop.agrees_eq, List.take_of_length_le (l := hop.run)]
    exact Nat.le_sub_of_add_le' h
  obtain ⟨b, run, hrun⟩ := List.exists_cons_of_ne_nil hop.run_ne_nil
  rw [showsRun, byteAt_toList hi, ok_bind, byteAt_of_drop (by rw [hrun, List.drop_zero]), ok_bind]
  split
  · rw [hslice, ok_bind, hfits]
    rfl
  · next hne =>
    rw [Hop.fits, hrun, Hop.agrees, Array.getElem?_eq_getElem hi]
    simp only
    rw [Bool.eq_false_iff.mpr hne, Bool.false_and]
    rfl

theorem showsTail_eq (hi : i ≤ data.size) (h : data.size < i + hop.length) :
    showsTail hop data i = .ok (hop.fits data i) := by
  have hdata : (data.toList.drop i).length = data.size - i := by
    rw [List.length_drop, Array.length_toList]
  have hk : data.size - i ≤ hop.run.length := Nat.le_of_lt (Nat.sub_lt_left_of_lt_add hi h)
  rw [showsTail, slice_rest hi, ok_bind, hdata, slice_eq (Nat.zero_le _) hk, ok_bind,
    List.drop_zero, Nat.sub_zero, Hop.fits, Hop.agrees_eq,
    List.take_of_length_le (l := data.toList.drop i) (hdata.symm ▸ hk)]
  rfl

theorem seek_eq (hop : Hop) (data : Array UInt8) (i : Nat) :
    seek hop data i = .ok (hop.seek data i) := by
  have hpos := hop.length_pos
  fun_induction Hop.seek hop data i with
  -- `last` is so far from the end of the data that a whole run can be asked for at every place
  | case1 i hi probe hhit last found hfound =>
    have hstride : firstFrom (showsRun hop data) (last + 1) i = .ok found :=
      firstFrom_eq fun j hij hj => showsRun_eq (by omega)
    rw [seek, if_pos hi]
    simp only
    rw [byteAt_eq_getD (by omega), ok_bind, if_pos hhit, hstride, ok_bind, if_pos hfound]
    rfl
  | case2 i hi probe hhit last found hfound ih =>
    have hstride : firstFrom (showsRun hop data) (last + 1) i = .ok found :=
      firstFrom_eq fun j hij hj => showsRun_eq (by omega)
    rw [seek, if_pos hi]
    simp only
    rw [byteAt_eq_getD (by omega), ok_bind, if_pos hhit, hstride, ok_bind, if_neg hfound, ih]
  | case3 i hi probe hhit ih =>
    rw [seek, if_pos hi]
    simp only
    rw [byteAt_eq_getD (by omega), ok_bind, if_neg hhit, ih]
  -- fewer bytes are left than the run has
  | case4 i hi =>
    rw [seek, if_neg hi]
    exact firstFrom_eq fun j hij hj => showsTail_eq (Nat.le_of_lt hj) (by omega)

/-- The first place of a byte in the rest of the data. -/
theorem idxOf?_eq (b : UInt8) (data : Array UInt8) (i : Nat) :
    ((data.toList.drop i).idxOf? b).elim data.size (i + ·) =
      LinearPattern.firstFrom (fun j => data[j]? == some b) data.size i := by
  by_cases hi : i < data.size
  · have ih := idxOf?_eq b data (i + 1)
    rw [LinearPattern.firstFrom, if_pos hi, drop_toList hi, List.idxOf?_cons,
      Array.getElem?_eq_getElem hi, Option.some_beq_some, ← ih]
    split
    · rfl
    · cases (data.toList.drop (i + 1)).idxOf? b with
      | none => rfl
      | some n => exact (Nat.add_right_comm i 1 n).symm
  · rw [LinearPattern.firstFrom, if_neg hi, List.drop_eq_nil_of_le (by simpa using hi),
      List.idxOf?_nil, Option.elim_none]
termination_by data.size - i

theorem next_eq (hop : Hop) (data : Array UInt8) (i : Nat) :
    next hop data i = .ok (hop.next data i) := by
  unfold next Hop.next
  split
  · rfl
  · next hi =>
    split
    · next hone =>
      obtain ⟨b, hrun⟩ := List.length_eq_one_iff.mp hone
      rw [hrun, byteAt_of_drop List.drop_zero, ok_bind, slice_rest (Nat.le_of_not_le hi), ok_bind,
        idxOf?_eq]
      rfl
    · next hone =>
      rw [seek_eq]
      split
      · next b hrun => exact absurd (congrArg List.length hrun) hone
      · rfl

end LinearPattern.Indexed
