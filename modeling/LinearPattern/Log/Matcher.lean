import LinearPattern.Log.Hops
import LinearPattern.Matcher.Sequence

/-!
# The events of matchers

* `Builder.events`: the events of building a matcher;
* `Matcher.events`: the events of one match;
* `Matches.nextEvents`: the events of one step of a sequence of matches.
-/

namespace LinearPattern

/-- The events of building a matcher. -/
def Builder.events (builder : Builder) : List Event :=
  match builder.build with
  | .error fault => [.rejected builder.pattern fault]
  | .ok _ => []

/-- The events of a match of the data from a position on. -/
def Matcher.events (m : Matcher) (data : Array UInt8) (start : Nat) : List Event :=
  if data.size < start then [] else hopsOfRun m.bounds m.pattern 0 data start

/-- The events of the next match of a sequence. -/
def Matches.nextEvents (it : Matches) : List Event :=
  if it.done ∨ it.data.size ≤ it.start then []
  else
    it.matcher.events it.data it.start ++
      match it.next.1 with
      | some m => if m.isEmpty then [.emptyMatch m.start] else []
      | none => []

end LinearPattern
