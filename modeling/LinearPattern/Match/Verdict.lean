import LinearPattern.Match.Run

/-!
# The verdict of a match

A verdict gives positions: how far the pattern was read, and how far the data.

* `Verdict`, and `Outcome.verdict`, which turns the place that a run holds into a position;
* `matchUsing`: a match from any position of the pattern and of the data, with a choice of how scans
  find their candidates;
* `matchFrom`: the same with scans that hop.
-/

namespace LinearPattern

/-- What a match comes to. -/
inductive Verdict
  /-- The pattern matched; it was read up to `patternEnd`, and the data up to `dataEnd`. -/
  | matched (patternEnd dataEnd : Nat)
  /-- The operator at `patternPos` does not match the data at `dataPos`. -/
  | mismatched (patternPos dataPos : Nat)
  deriving DecidableEq

/-- The verdict of a run of a pattern. -/
def Outcome.verdict (pattern : Bytes) : Outcome → Verdict
  | .reached ps d => .matched (pattern.length - ps.length) d
  | .ended ps d => .matched (pattern.length - ps.length) d
  | .failed ps d => .mismatched (pattern.length - ps.length) d

/-- Where the data ends that a match takes. -/
def Verdict.dataEnd? : Verdict → Option Nat
  | .matched _ d => some d
  | .mismatched _ _ => none

/-- Matches a pattern from position `p` on against the data from position `d` on.  A position past
the end is taken as the end. -/
def matchUsing (hopAt : Bytes → Option Hop) (bounds : Bounds) (pattern : Bytes) (p : Nat)
    (data : Array UInt8) (d : Nat) : Verdict :=
  (run hopAt bounds (pattern.drop p) data (min d data.size)).verdict pattern

/-- Matches a pattern, with scans that hop from candidate to candidate. -/
def matchFrom (bounds : Bounds) (pattern : Bytes) (p : Nat) (data : Array UInt8) (d : Nat) :
    Verdict :=
  matchUsing Hop.of? bounds pattern p data d

end LinearPattern
