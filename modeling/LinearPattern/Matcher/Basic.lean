import LinearPattern.Match.Report
import LinearPattern.Pattern.Literal
import LinearPattern.Pattern.Structure

/-!
# Matchers

A matcher is a pattern whose structure has been checked, together with the bounds that its matches
run under.

* `Limits`: the bounds that a new matcher starts from;
* `Builder`: a pattern on its way to a matcher, `Builder.build`;
* `Matcher.ofPattern`, `Matcher.ofLiteral`;
* `Matcher.exec`, `Matcher.matchAt?`, `Matcher.isMatch`, `Matcher.report`: one match;
* `Match`: what a match takes of the data.
-/

namespace LinearPattern

/-- The bounds that new matchers start from. -/
structure Limits where
  /-- The number of blocks that may be open one inside the other. -/
  nesting : Nat := 256
  /-- The number of items that a match may try; 0 is no limit. -/
  ops : Nat := 0
  deriving DecidableEq

/-- A number of items as a bound, where 0 is no limit. -/
def opsBound (n : Nat) : Option Nat := if n = 0 then none else some n

/-- The bounds of a match under the limits. -/
def Limits.bounds (limits : Limits) : Bounds where
  maxOps := opsBound limits.ops
  nesting := limits.nesting

/-- What a match takes of the data, from `start` up to `stop`. -/
structure Match where
  data : Array UInt8
  start : Nat
  stop : Nat
  /-- How far the pattern was read. -/
  patternEnd : Nat

namespace Match

/-- The bytes that are taken. -/
def bytes (m : Match) : Array UInt8 := m.data.extract m.start m.stop

/-- The bytes as text, if they are valid UTF-8. -/
def text? (m : Match) : Option String := String.fromUTF8? ⟨m.bytes⟩

/-- The number of bytes that are taken. -/
def length (m : Match) : Nat := m.stop - m.start

/-- The match takes nothing. -/
def isEmpty (m : Match) : Bool := m.start == m.stop

end Match

/-! ### Checked patterns -/

/-- A checked pattern and the bounds of its matches. -/
structure Matcher where
  pattern : Bytes
  bounds : Bounds

/-- A pattern that has not been checked yet, with the bounds it will have. -/
structure Builder where
  pattern : Bytes
  bounds : Bounds
  /-- Whether the check is strict. -/
  strict : Bool := false

namespace Builder

/-- Starts from the limits as they are now. -/
def ofPattern (limits : Limits) (pattern : Bytes) : Builder := { pattern, bounds := limits.bounds }

/-- Bounds the number of items that a match may try; 0 is no limit. -/
def setMaxOps (n : Nat) (builder : Builder) : Builder :=
  { builder with bounds.maxOps := opsBound n }

/-- Bounds how deep blocks may nest. -/
def setNesting (n : Nat) (builder : Builder) : Builder := { builder with bounds.nesting := n }

/-- Makes the check strict or lenient. -/
def setStrict (yes : Bool) (builder : Builder) : Builder := { builder with strict := yes }

/-- Checks the pattern. -/
def build (builder : Builder) : Except Fault Matcher :=
  match check builder.bounds.nesting builder.strict builder.pattern with
  | .error fault => .error fault
  | .ok _ => .ok { pattern := builder.pattern, bounds := builder.bounds }

end Builder

namespace Matcher

/-- The matcher of a pattern, leniently checked. -/
def ofPattern (limits : Limits) (pattern : Bytes) : Except Fault Matcher :=
  (Builder.ofPattern limits pattern).build

/-- The matcher of a literal byte string.  Its pattern has no blocks, so nothing is checked. -/
def ofLiteral (limits : Limits) (literal : Bytes) : Matcher where
  pattern := literalPattern literal
  bounds := limits.bounds

/-- Matches the data from a position on, which has to be in the data or at its end. -/
def exec (m : Matcher) (data : Array UInt8) (start : Nat) : Except Fault Verdict :=
  if data.size < start then .error (.startOutOfRange start data.size)
  else .ok (matchFrom m.bounds m.pattern 0 data start)

/-- The match from a position on, if there is one. -/
def matchAt? (m : Matcher) (data : Array UInt8) (start : Nat) : Option Match :=
  match m.exec data start with
  | .error _ => none
  | .ok (.mismatched _ _) => none
  | .ok (.matched p d) => some { data, start, stop := d, patternEnd := p }

/-- The data matches at its start. -/
def isMatch (m : Matcher) (data : Array UInt8) : Bool := (m.matchAt? data 0).isSome

/-- The report of the match at the start of the data. -/
def report (m : Matcher) (data : Array UInt8) : String :=
  LinearPattern.report m.pattern data.toList (matchFrom m.bounds m.pattern 0 data 0).encode

/-- A matcher shown by its pattern. -/
def display (m : Matcher) : String :=
  "Lex \x7b pattern: " ++ quoted (visible m.pattern) ++ ", .. \x7d"

end Matcher

end LinearPattern
