import LinearPattern.Byte.Class
import LinearPattern.Byte.Mask

/-!
# Hops: looking for a run of literals

Where an element starts with a run of plain bytes, it can only match at a place where the data shows
that run, or the beginning of it cut off by the end of the data.  A `Hop` finds the next such place.
It looks at every `k`-th byte for a run of `k` bytes: a byte that is not in the mask of the run
rules out all `k` places whose run would cover it.

* `firstFrom`: the first position that satisfies a test;
* `Hop.of?`: the hop for the element at a place of a pattern, if it starts with plain bytes;
* `Hop.fits`: the data shows the run from here, as far as the data reaches;
* `Hop.next`: the next position where the run fits.

A hop never goes backwards (`Hop.le_next`).
-/

namespace LinearPattern

/-- The first position from `i` on and below `size` that satisfies a test, or `size`. -/
def firstFrom (test : Nat → Bool) (size i : Nat) : Nat :=
  if i < size then
    if test i then i else firstFrom test size (i + 1)
  else size
termination_by size - i

theorem le_firstFrom (test : Nat → Bool) {size i : Nat} (h : i ≤ size) :
    i ≤ firstFrom test size i := by
  fun_induction firstFrom test size i with
  | case1 => exact Nat.le_refl _
  | case2 i hi _ ih => exact Nat.le_trans (Nat.le_succ i) (ih hi)
  | case3 => exact h

/-- A run of bytes with its mask. -/
structure Hop where
  run : Bytes
  run_ne_nil : run ≠ []
  mask : UInt64 := maskOf run
  mask_eq : mask = maskOf run := by rfl

namespace Hop

/-- The plain bytes that the element at a place of a pattern starts with.  Groups are looked into;
a literal that is not in a group is a run of its own. -/
def leadingRun : Bytes → Bytes
  | [] => []
  | b :: rest =>
    if b == Byte.groupOpen then (afterOpens rest).takeWhile Byte.isPlain
    else if Byte.isPlain b then [b]
    else []
where
  /-- Passes over the opens of groups. -/
  afterOpens (ps : Bytes) : Bytes := ps.dropWhile (· == Byte.groupOpen)

/-- The hop for the element at a place of a pattern, if it starts with plain bytes. -/
def of? (ps : Bytes) : Option Hop :=
  match h : leadingRun ps with
  | [] => none
  | b :: run => some { run := b :: run, run_ne_nil := by simp }

/-- The length of the run. -/
def length (hop : Hop) : Nat := hop.run.length

theorem length_pos (hop : Hop) : 0 < hop.length := List.length_pos_iff.mpr hop.run_ne_nil

/-- A byte has a bit in the mask, so that it may belong to the run. -/
def hits (hop : Hop) (b : UInt8) : Bool := hop.mask &&& Byte.bit b != 0

/-- The data shows the bytes of `run` from `i` on, as far as the data reaches. -/
def agrees (data : Array UInt8) : Bytes → Nat → Bool
  | [], _ => true
  | b :: run, i =>
    match data[i]? with
    | none => true
    | some c => c == b && agrees data run (i + 1)

/-- The data from `i` on starts with the run or ends inside it. -/
def fits (hop : Hop) (data : Array UInt8) (i : Nat) : Bool := agrees data hop.run i

/-- The next position from `i` on where the run fits, looking at every `k`-th byte while a whole run
of `k` bytes is left.  All positions below `i` are ruled out. -/
def seek (hop : Hop) (data : Array UInt8) (i : Nat) : Nat :=
  if i + hop.length ≤ data.size then
    let probe := i + hop.length - 1
    if hop.hits (data.getD probe 0) then
      let last := min probe (data.size - hop.length)
      let found := firstFrom (hop.fits data) (last + 1) i
      if found ≤ last then found else hop.seek data (last + 1)
    else hop.seek data (i + hop.length)
  else firstFrom (hop.fits data) data.size i
termination_by data.size - i
decreasing_by
  all_goals
    have := hop.length_pos
    omega

/-- The next position from `i` on where the run fits, or the end of the data. -/
def next (hop : Hop) (data : Array UInt8) (i : Nat) : Nat :=
  if data.size ≤ i then data.size
  else
    match hop.run with
    | [b] => firstFrom (fun j => data[j]? == some b) data.size i
    | _ => hop.seek data i

theorem le_seek (hop : Hop) (data : Array UInt8) {i : Nat} (h : i ≤ data.size) :
    i ≤ hop.seek data i := by
  have hpos := hop.length_pos
  fun_induction hop.seek data i with
  | case1 i _ _ _ last found hfound => exact le_firstFrom _ (by omega)
  | case2 i _ _ _ last found _ ih => exact Nat.le_trans (by omega) (ih (by omega))
  | case3 i _ _ _ ih => exact Nat.le_trans (Nat.le_add_right i _) (ih (by omega))
  | case4 i _ => exact le_firstFrom _ h

/-- A hop never goes backwards. -/
theorem le_next (hop : Hop) (data : Array UInt8) {i : Nat} (h : i ≤ data.size) :
    i ≤ hop.next data i := by
  unfold next
  split
  · exact h
  · split
    · exact le_firstFrom _ h
    · exact le_seek hop data h

end Hop

end LinearPattern
