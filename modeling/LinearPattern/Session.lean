import LinearPattern.Log.Matcher

/-!
# Sessions

A session holds the limits for new matchers, and matchers, builders and sequences of matches under
names.  Its steps change the limits, make and use what is held, and each of them has an answer.

* `Slots`: values under names;
* `Step`, `Answer`, `Missing`: what can be asked for, what comes back, and what it may lack;
* `Session.perform`: one step;
* `Session.answers`, `Session.log`: the answers to a list of steps, and the events on the way.

Changing the limits has no effect on what is already held: a builder takes the limits when it is
made, and a matcher has its own bounds from then on.
-/

namespace LinearPattern

/-- Values under names. -/
abbrev Slots (α : Type) := List (String × α)

namespace Slots

variable {α : Type}

/-- The value under a name. -/
def get? (slots : Slots α) (name : String) : Option α := slots.lookup name

/-- Removes the value under a name. -/
def clear (name : String) (slots : Slots α) : Slots α := slots.filter fun slot => slot.1 != name

/-- Puts a value under a name, in place of the one that is there. -/
def put (name : String) (value : α) (slots : Slots α) : Slots α := (name, value) :: slots.clear name

end Slots

/-- The state of a session. -/
structure Session where
  limits : Limits := {}
  matchers : Slots Matcher := []
  builders : Slots Builder := []
  sequences : Slots Matches := []

/-- What a session can be asked for. -/
inductive Step
  /-- Sets how deep blocks of new matchers may nest. -/
  | setNesting (n : Nat)
  /-- Sets how many items matches of new matchers may try; 0 is no limit. -/
  | setOps (n : Nat)
  /-- Asks for the limits. -/
  | getLimits
  /-- Asks for the bounds of a match under the limits. -/
  | getBounds
  /-- Matches a pattern under the limits. -/
  | matchFrom (pattern : Bytes) (p : Nat) (data : Array UInt8) (d : Nat)
  /-- Matches a pattern under the limits, with its own bound on the items. -/
  | matchOps (maxOps : Option Nat) (pattern : Bytes) (p : Nat) (data : Array UInt8) (d : Nat)
  /-- Makes a matcher of a pattern. -/
  | newMatcher (name : String) (pattern : Bytes)
  /-- Makes a matcher of a literal byte string. -/
  | newLiteral (name : String) (literal : Bytes)
  /-- Copies a matcher. -/
  | copyMatcher (source name : String)
  /-- Makes a builder for a pattern. -/
  | newBuilder (name : String) (pattern : Bytes)
  /-- Bounds the items of a builder; 0 is no limit. -/
  | builderOps (name : String) (n : Nat)
  /-- Bounds the nesting of a builder. -/
  | builderNesting (name : String) (n : Nat)
  /-- Makes a builder strict or lenient. -/
  | builderStrict (name : String) (yes : Bool)
  /-- Makes a matcher of a builder and gives the builder up. -/
  | build (builder name : String)
  /-- Asks for the pattern of a matcher. -/
  | getPattern (name : String)
  /-- Shows a matcher. -/
  | display (name : String)
  /-- Matches data from a position on. -/
  | exec (name : String) (data : Array UInt8) (start : Nat)
  /-- Asks for the match from a position on. -/
  | matchAt (name : String) (data : Array UInt8) (start : Nat)
  /-- Asks whether data matches at its start. -/
  | isMatch (name : String) (data : Array UInt8)
  /-- Asks for the report of the match at the start of the data. -/
  | report (name : String) (data : Array UInt8)
  /-- Starts a sequence of matches. -/
  | findAll (name : String) (data : Array UInt8) (sequence : String)
  /-- Asks for the next match of a sequence. -/
  | next (sequence : String)
  /-- Asks for all matches of a sequence that are still to come. -/
  | rest (sequence : String)

/-- The answer to a step. -/
inductive Answer
  | done
  | number (n : Nat)
  | limits (limits : Limits)
  | bounds (bounds : Bounds)
  | verdict (verdict : Verdict)
  | fault (fault : Fault)
  | found (found : Option Match)
  | foundAll (found : List Match)
  | truth (yes : Bool)
  | bytes (bytes : Bytes)
  | text (text : String)

/-- A name under which a step finds nothing. -/
inductive Missing
  | matcher (name : String)
  | builder (name : String)
  | sequence (name : String)

/-- The wording for a name with nothing under it. -/
def Missing.message : Missing → String
  | matcher name => s!"no matcher {name}"
  | builder name => s!"no builder {name}"
  | sequence name => s!"no sequence {name}"

namespace Session

/-- The matcher under a name. -/
def matcher (s : Session) (name : String) : Except Missing Matcher :=
  match s.matchers.get? name with
  | some m => .ok m
  | none => .error (.matcher name)

/-- The builder under a name. -/
def builder (s : Session) (name : String) : Except Missing Builder :=
  match s.builders.get? name with
  | some b => .ok b
  | none => .error (.builder name)

/-- The sequence under a name. -/
def sequence (s : Session) (name : String) : Except Missing Matches :=
  match s.sequences.get? name with
  | some it => .ok it
  | none => .error (.sequence name)

/-- Holds the matcher that was built, or nothing where the pattern is at fault. -/
def hold (s : Session) (name : String) (built : Except Fault Matcher) : Session × Answer :=
  match built with
  | .ok m => ({ s with matchers := s.matchers.put name m }, .done)
  | .error fault => ({ s with matchers := s.matchers.clear name }, .fault fault)

/-- Changes a builder. -/
def adjust (s : Session) (name : String) (change : Builder → Builder) :
    Except Missing (Session × Answer) := do
  let b ← s.builder name
  return ({ s with builders := s.builders.put name (change b) }, .done)

/-- One step: the session behind it, and the answer. -/
def perform (s : Session) : Step → Except Missing (Session × Answer)
  | .setNesting n => .ok ({ s with limits.nesting := n }, .number n)
  | .setOps n => .ok ({ s with limits.ops := n }, .number n)
  | .getLimits => .ok (s, .limits s.limits)
  | .getBounds => .ok (s, .bounds s.limits.bounds)
  | .matchFrom pattern p data d =>
    .ok (s, .verdict (LinearPattern.matchFrom s.limits.bounds pattern p data d))
  | .matchOps maxOps pattern p data d =>
    .ok (s, .verdict (LinearPattern.matchFrom { s.limits.bounds with maxOps } pattern p data d))
  | .newMatcher name pattern => .ok (s.hold name (Matcher.ofPattern s.limits pattern))
  | .newLiteral name literal => .ok (s.hold name (.ok (Matcher.ofLiteral s.limits literal)))
  | .copyMatcher source name => do
    let m ← s.matcher source
    return s.hold name (.ok m)
  | .newBuilder name pattern =>
    let b := Builder.ofPattern s.limits pattern
    .ok ({ s with builders := s.builders.put name b }, .done)
  | .builderOps name n => s.adjust name (Builder.setMaxOps n)
  | .builderNesting name n => s.adjust name (Builder.setNesting n)
  | .builderStrict name yes => s.adjust name (Builder.setStrict yes)
  | .build builder name => do
    let b ← s.builder builder
    return { s with builders := s.builders.clear builder }.hold name b.build
  | .getPattern name => do
    let m ← s.matcher name
    return (s, .bytes m.pattern)
  | .display name => do
    let m ← s.matcher name
    return (s, .text m.display)
  | .exec name data start => do
    let m ← s.matcher name
    match m.exec data start with
    | .ok verdict => return (s, .verdict verdict)
    | .error fault => return (s, .fault fault)
  | .matchAt name data start => do
    let m ← s.matcher name
    return (s, .found (m.matchAt? data start))
  | .isMatch name data => do
    let m ← s.matcher name
    return (s, .truth (m.isMatch data))
  | .report name data => do
    let m ← s.matcher name
    return (s, .text (m.report data))
  | .findAll name data sequence => do
    let m ← s.matcher name
    return ({ s with sequences := s.sequences.put sequence (m.findAll data) }, .done)
  | .next name => do
    let it ← s.sequence name
    return ({ s with sequences := s.sequences.put name it.next.2 }, .found it.next.1)
  | .rest name => do
    let it ← s.sequence name
    let finished := it.trail.getLast?.elim it (·.next.2)
    return ({ s with sequences := s.sequences.put name finished }, .foundAll it.toList)

/-- The events of a step. -/
def events (s : Session) : Step → List Event
  | .matchFrom pattern p data d => hopsOfRun s.limits.bounds pattern p data d
  | .matchOps maxOps pattern p data d =>
    hopsOfRun { s.limits.bounds with maxOps } pattern p data d
  | .newMatcher _ pattern => (Builder.ofPattern s.limits pattern).events
  | .build builder _ => (s.builders.get? builder).elim [] Builder.events
  | .exec name data start => (s.matchers.get? name).elim [] (·.events data start)
  | .matchAt name data start => (s.matchers.get? name).elim [] (·.events data start)
  | .isMatch name data => (s.matchers.get? name).elim [] (·.events data 0)
  | .report name data => (s.matchers.get? name).elim [] (·.events data 0)
  | .next name => (s.sequences.get? name).elim [] Matches.nextEvents
  | .rest name => (s.sequences.get? name).elim [] fun it => it.trail.flatMap Matches.nextEvents
  | _ => []

/-- The answers to a list of steps. -/
def answers (s : Session) : List Step → Except Missing (List Answer)
  | [] => .ok []
  | step :: steps => do
    let (later, answer) ← s.perform step
    return answer :: (← later.answers steps)

/-- The events of a list of steps that a log of this level takes, each with the index of its step;
the first step has the index `index`. -/
def log (s : Session) (level : Level) (index : Nat) : List Step → List (Nat × Event)
  | [] => []
  | step :: steps =>
    let taken := (s.events step).filter fun event => level.takes event.level
    let later :=
      match s.perform step with
      | .ok (later, _) => later.log level (index + 1) steps
      | .error _ => []
    taken.map (index, ·) ++ later

end Session

end LinearPattern
