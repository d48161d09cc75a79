import LinearPattern.Fault
import LinearPattern.Pattern.Extent

/-!
# The structure of a pattern

Any byte string can be run as a pattern, so a check of its structure looks for what is likely to be
a slip.  It always bounds how deep groups and options nest; a strict check also asks that every set
and every block is closed by its own close, and that nothing else is closed.

* `walk`: the check from a place on, with the blocks that are open there;
* `check`: the check of a whole pattern.

A set is passed over whole, and so is a byte behind a backslash.  In a lenient check an unclosed set
ends the walk, a close with nothing open does nothing, and any close ends the innermost block.
-/

namespace LinearPattern

/-- Whether the byte `b` is the close for the block that opens at the place `opening`. -/
def closes (opening : Bytes) (b : UInt8) : Bool :=
  if opening.head? = some Byte.groupOpen then b == Byte.groupClose else b == Byte.optionClose

/-- Checks the rest of a pattern of length `total`.  `opened` has the places where the open blocks
open, the innermost first; at most `limit` of them may be open. -/
def walk (limit : Nat) (strict : Bool) (total : Nat) (opened : List Bytes) (ps : Bytes) :
    Except Fault Unit :=
  match ps with
  | [] =>
    match opened with
    | [] => .ok ()
    | opening :: _ =>
      if strict then .error (.unclosedBlock (total - opening.length)) else .ok ()
  | b :: rest =>
    let pos := total - (b :: rest).length
    match Op.ofByte b with
    | .escape => walk limit strict total opened (rest.drop 1)
    | .set =>
      match afterSet? rest with
      | none => if strict then .error (.unclosedSet pos) else .ok ()
      | some _ => walk limit strict total opened (afterSet rest)
    | .close =>
      match opened with
      | [] =>
        if strict then .error (.unmatchedClose pos) else walk limit strict total [] rest
      | opening :: outer =>
        if strict && !closes opening b then .error (.mismatchedClose pos)
        else walk limit strict total outer rest
    | op =>
      if op = .group ∨ op = .option then
        if limit ≤ opened.length then .error (.nestingOver (opened.length + 1) limit)
        else walk limit strict total ((b :: rest) :: opened) rest
      else walk limit strict total opened rest
termination_by ps.length
decreasing_by
  all_goals
    have := (afterSet_suffix rest).length_le
    simp only [List.length_cons, List.length_drop]
    omega

/-- Checks the structure of a pattern. -/
def check (limit : Nat) (strict : Bool) (pattern : Bytes) : Except Fault Unit :=
  walk limit strict pattern.length [] pattern

end LinearPattern
