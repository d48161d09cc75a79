import LinearPattern.Byte.Visible
import LinearPattern.Fault

/-!
# Events

What matching announces besides its answers, for a log.

* `Level`, `Level.takes`: how much detail a log takes;
* `Event`, `Event.level`, `Event.message`.
-/

namespace LinearPattern

/-- How much detail an event is. -/
inductive Level
  | debug
  | trace
  deriving DecidableEq

/-- A log of this level takes events of that level. -/
def Level.takes : Level → Level → Bool
  | .trace, _ => true
  | .debug, .debug => true
  | .debug, .trace => false

/-- What is announced. -/
inductive Event
  /-- The check of a pattern found a fault. -/
  | rejected (pattern : Bytes) (fault : Fault)
  /-- A sequence of matches stops at a match that takes nothing. -/
  | emptyMatch (start : Nat)
  /-- A scan from this position looks for the run. -/
  | hop (start : Nat) (run : Bytes)
  deriving DecidableEq

/-- The level of an event. -/
def Event.level : Event → Level
  | rejected _ _ => .debug
  | emptyMatch _ => .debug
  | hop _ _ => .trace

/-- The wording of an event. -/
def Event.message : Event → String
  | rejected pattern fault => "rejected pattern \"" ++ visible pattern ++ "\": " ++ fault.message
  | emptyMatch start => s!"find_iter: zero-width match at {start}, stopping"
  | hop start run => s!"scan at {start}: hop over \"" ++ visible run ++ "\""

end LinearPattern
