/-!
# Faults

What can be wrong with a pattern or with a request to match it.  A mismatch is no fault.

* `Fault`, with its number `Fault.code` and its wording `Fault.message`;
* `Fault.ofCode`: the fault with a number, positions unknown;
* `codeText`, `isPatternCode`: the wording and the kind of a number.
-/

namespace LinearPattern

/-- What is wrong with a pattern or with a request. -/
inductive Fault
  /-- Blocks nest `depth` deep, and the limit is smaller. -/
  | nestingOver (depth limit : Nat)
  /-- A match was asked for behind the end of the data. -/
  | startOutOfRange (start length : Nat)
  /-- The set that opens here is never closed. -/
  | unclosedSet (pos : Nat)
  /-- The group or option that opens here is never closed. -/
  | unclosedBlock (pos : Nat)
  /-- A close at which no block is open. -/
  | unmatchedClose (pos : Nat)
  /-- A close that ends a block of the other kind. -/
  | mismatchedClose (pos : Nat)
  /-- A fault known by its number alone. -/
  | other (code : Int)
  deriving DecidableEq

/-- The wording for a number; 0 and -1 stand for a match and a mismatch. -/
def codeText (code : Int) : String :=
  if code = 0 then "success"
  else if code = -1 then "mismatch"
  else if code = -31 then "start position out of range"
  else if code = -16 then "nesting limit over"
  else if code = -100 then "end pattern in set"
  else if code = -101 then "end pattern in group or option"
  else if code = -102 then "unmatched close"
  else if code = -103 then "close does not match its open"
  else "undefined error code"

/-- The numbers of faults in the structure of a pattern. -/
def isPatternCode (code : Int) : Bool := -199 ≤ code && code ≤ -100

namespace Fault

/-- The number of a fault. -/
def code : Fault → Int
  | nestingOver _ _ => -16
  | startOutOfRange _ _ => -31
  | unclosedSet _ => -100
  | unclosedBlock _ => -101
  | unmatchedClose _ => -102
  | mismatchedClose _ => -103
  | other code => code

/-- The fault with a number.  Every position in it is 0. -/
def ofCode (code : Int) : Fault :=
  if code = -16 then nestingOver 0 0
  else if code = -31 then startOutOfRange 0 0
  else if code = -100 then unclosedSet 0
  else if code = -101 then unclosedBlock 0
  else if code = -102 then unmatchedClose 0
  else if code = -103 then mismatchedClose 0
  else other code

/-- The fault is one in the structure of a pattern. -/
def isStructural (fault : Fault) : Bool := isPatternCode fault.code

/-- The wording of a fault. -/
def message (fault : Fault) : String :=
  let text := codeText fault.code
  match fault with
  | nestingOver depth limit => s!"{text}: depth {depth} exceeds {limit}"
  | startOutOfRange start length => s!"{text}: {start} > {length}"
  | unclosedSet pos => s!"syntax error: {text} at {pos}"
  | unclosedBlock pos => s!"syntax error: {text} at {pos}"
  | unmatchedClose pos => s!"syntax error: {text} at {pos}"
  | mismatchedClose pos => s!"syntax error: {text} at {pos}"
  | other code => s!"lex error (code {code})"

/-- The fault with the number of a fault has that number. -/
@[simp] theorem code_ofCode (n : Int) : (ofCode n).code = n := by
  unfold ofCode
  repeat' split
  all_goals simp_all [code]

end Fault

end LinearPattern
