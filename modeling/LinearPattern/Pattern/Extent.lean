import LinearPattern.Byte.Class

/-!
# How far an element reaches

The rest of a pattern behind a set, a block or an element, found without looking at any data.
A place in a pattern is the part of the pattern that is still to be read, so each function maps
a place to a later one.

* `afterSet?`, `afterSet`: behind the set whose body starts here;
* `afterBlock`: behind the close of the block whose body starts here;
* `afterElement`, `afterItem`: behind an element, without and with the `+` that follow it;
* the same as positions in a whole pattern (`setEnd?`, `blockEnd`, …);
* `slice`: the bytes between two positions, if there are such bytes (`slice_eq`).

Each of them returns a suffix of what it is given (`afterSet_suffix`, `afterBlock_suffix`, …), so
reading on from there always ends.
-/

namespace LinearPattern

/-! ### Sets -/

/-- In a set a backslash or an at sign forms one member together with the byte behind it. -/
def Byte.takesOperand (b : UInt8) : Bool := b == Byte.escape || b == Byte.letter

/-- What follows the set with this body, or nothing if the pattern ends first. -/
def afterSet? : Bytes → Option Bytes
  | [] => none
  | [b] => if b == Byte.setClose then some [] else none
  | b :: x :: rest =>
    if b == Byte.setClose then some (x :: rest)
    else if Byte.takesOperand b then afterSet? rest
    else afterSet? (x :: rest)

/-- What follows the set with this body; an unclosed set takes all that is left. -/
def afterSet (body : Bytes) : Bytes := (afterSet? body).getD []

theorem afterSet?_suffix {body rest : Bytes} (h : afterSet? body = some rest) : rest <:+ body := by
  fun_induction afterSet? body with
  | case1 => simp at h
  | case2 b => cases h; exact List.nil_suffix
  | case3 b => simp at h
  | case4 b x => cases h; exact List.suffix_cons b _
  | case5 b x tail _ _ ih =>
    exact (ih h).trans ((List.suffix_cons x tail).trans (List.suffix_cons b (x :: tail)))
  | case6 b x tail _ _ ih => exact (ih h).trans (List.suffix_cons b (x :: tail))

theorem afterSet_suffix (body : Bytes) : afterSet body <:+ body := by
  unfold afterSet
  cases h : afterSet? body with
  | none => exact List.nil_suffix
  | some rest => exact afterSet?_suffix h

/-! ### Blocks -/

/-- What follows the block that is `depth` blocks further out than the one whose body starts here.
Any close ends the innermost block, whatever opened it; sets are passed over whole, and an unclosed
block takes all that is left. -/
def afterBlock (depth : Nat) : Bytes → Bytes
  | [] => []
  | b :: rest =>
    match Op.ofByte b with
    | .escape => afterBlock depth (rest.drop 1)
    | .set => afterBlock depth (afterSet rest)
    | .group => afterBlock (depth + 1) rest
    | .option => afterBlock (depth + 1) rest
    | .close =>
      match depth with
      | 0 => rest
      | outer + 1 => afterBlock outer rest
    | _ => afterBlock depth rest
termination_by body => body.length
decreasing_by
  all_goals
    have := (afterSet_suffix rest).length_le
    simp only [List.length_cons, List.length_drop]
    omega

theorem afterBlock_suffix (depth : Nat) (body : Bytes) : afterBlock depth body <:+ body := by
  fun_induction afterBlock depth body with
  | case1 => exact List.nil_suffix
  | case2 _ b rest _ ih =>
    exact ih.trans ((List.drop_suffix 1 rest).trans (List.suffix_cons b rest))
  | case3 _ b rest _ ih => exact ih.trans ((afterSet_suffix rest).trans (List.suffix_cons b rest))
  | case4 _ b rest _ ih => exact ih.trans (List.suffix_cons b rest)
  | case5 _ b rest _ ih => exact ih.trans (List.suffix_cons b rest)
  | case6 b rest => exact List.suffix_cons b rest
  | case7 b rest _ _ ih => exact ih.trans (List.suffix_cons b rest)
  | case8 _ b rest _ _ _ _ _ ih => exact ih.trans (List.suffix_cons b rest)

/-! ### Elements and runs -/

/-- What follows the element that starts with the byte `b`, before any `+`. -/
def afterElement (b : UInt8) (rest : Bytes) : Bytes :=
  match Op.ofByte b with
  | .escape => rest.drop 1
  | .set => afterSet rest
  | .group => afterBlock 0 rest
  | .option => afterBlock 0 rest
  | _ => rest

/-- What follows a run of the byte `b`. -/
def afterRun (b : UInt8) (ps : Bytes) : Bytes := ps.dropWhile (· == b)

/-- What follows the element that starts with the byte `b` and the `+` behind it. -/
def afterItem (b : UInt8) (rest : Bytes) : Bytes := afterRun Byte.plus (afterElement b rest)

theorem afterElement_suffix (b : UInt8) (rest : Bytes) : afterElement b rest <:+ rest := by
  unfold afterElement
  split
  · exact List.drop_suffix 1 rest
  · exact afterSet_suffix rest
  · exact afterBlock_suffix 0 rest
  · exact afterBlock_suffix 0 rest
  · exact List.suffix_refl rest

theorem afterRun_suffix (b : UInt8) (ps : Bytes) : afterRun b ps <:+ ps :=
  List.dropWhile_suffix _

theorem afterItem_suffix (b : UInt8) (rest : Bytes) : afterItem b rest <:+ rest :=
  (afterRun_suffix _ _).trans (afterElement_suffix b rest)

/-- No item follows here in this block: the pattern ends or the block is closed. -/
def atBlockEnd : Bytes → Bool
  | [] => true
  | b :: _ => Byte.isClose b

/-! ### Positions in a whole pattern -/

/-- A position at which there is no byte. -/
structure OutOfRange where
  length : Nat
  index : Nat
  deriving DecidableEq

/-- The wording for a position at which there is no byte. -/
def OutOfRange.message (e : OutOfRange) : String :=
  s!"index out of bounds: the len is {e.length} but the index is {e.index}"

/-- The bytes between two positions, which have to be in range and in order. -/
def slice (bytes : Bytes) (start stop : Nat) : Except OutOfRange Bytes :=
  if start ≤ stop ∧ stop ≤ bytes.length then .ok ((bytes.drop start).take (stop - start))
  else .error ⟨bytes.length, max start stop⟩

theorem slice_eq {bytes : Bytes} {start stop : Nat} (h : start ≤ stop) (hs : stop ≤ bytes.length) :
    slice bytes start stop = .ok ((bytes.drop start).take (stop - start)) := if_pos ⟨h, hs⟩

/-- The position behind the set whose body starts at `p`, if the set is closed. -/
def setEnd? (pattern : Bytes) (p : Nat) : Option Nat :=
  (afterSet? (pattern.drop p)).map (pattern.length - ·.length)

/-- The position behind the set whose body starts at `p`. -/
def setEnd (pattern : Bytes) (p : Nat) : Nat :=
  pattern.length - (afterSet (pattern.drop p)).length

/-- The position behind the block whose body starts at `p`. -/
def blockEnd (pattern : Bytes) (p : Nat) : Nat :=
  pattern.length - (afterBlock 0 (pattern.drop p)).length

/-- The position behind the element that starts at `p`; there has to be one. -/
def elementEnd (pattern : Bytes) (p : Nat) : Except OutOfRange Nat :=
  match pattern.drop p with
  | [] => .error ⟨pattern.length, p⟩
  | b :: rest => .ok (pattern.length - (afterElement b rest).length)

/-- The first position from `p` on that does not hold the byte `b`. -/
def runEnd (pattern : Bytes) (p : Nat) (b : UInt8) : Nat :=
  p + ((pattern.drop p).takeWhile (· == b)).length

end LinearPattern
