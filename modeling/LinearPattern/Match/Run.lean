import LinearPattern.Match.Hop
import LinearPattern.Pattern.ByteSet

/-!
# Running a pattern

The bytes of a pattern are its program.  A run holds a place in the pattern, which is the part of it
that is still to be read, and a position in the data; it executes one item after another and never
goes back in the data.

* `Outcome`: how a run ends;
* `element`: one element at one position, `item`: an element with the `+` behind it;
* `repeated`: an element again and again, for as long as it moves on;
* `locate`: the first position at which a probe does not fail, for a scan;
* `enter`: an inner block, if there is room for it;
* `block`: the items of a block, up to its close, a boundary, the end of the pattern, the end of the
  data or the end of the budget, and one equation for each kind of item (`block_close`, …);
* `run`: a whole match.

`element`, `repeated` and `locate` take the run of an inner block as a function of the data
position, so that `block` alone is recursive, in the length of what is left of the pattern.  How a
scan finds its candidates is a parameter: `hopAt` gives the hop at a place of a pattern, and with no
hop at all a scan tries every position.
-/

namespace LinearPattern

/-- How a run ends: a place in the pattern and a position in the data. -/
inductive Outcome
  /-- The run got this far, and whoever started it goes on. -/
  | reached (ps : Bytes) (d : Nat)
  /-- The operator at this place does not match at this position. -/
  | failed (ps : Bytes) (d : Nat)
  /-- A boundary ended the whole match. -/
  | ended (ps : Bytes) (d : Nat)
  deriving DecidableEq

/-- The run did not match. -/
def Outcome.isFailed : Outcome → Bool
  | .failed _ _ => true
  | _ => false

/-! ### Elements -/

/-- Whether an element of one data byte, written as the operator `op` of the byte `b` and what
follows it, accepts the data byte `c`.  A backslash at the end of the pattern stands for itself. -/
def accepts (op : Op) (b : UInt8) (rest : Bytes) (c : UInt8) : Bool :=
  match op with
  | .any => true
  | .nonBlank => !Byte.isBlank c
  | .blank => Byte.isBlank c
  | .newline => Byte.isNewline c
  | .letter => Byte.isLetter c
  | .digit => Byte.isDigit c
  | .escape => c == rest.headD Byte.escape
  | .set => ByteSet.contains rest c
  | _ => c == b

/-- The element that starts with the byte `b`, tried once at position `d`.  A block is run by
`body`; what follows a block is found from the pattern, not from where its run stopped.  An option
whose block fails matches nothing. -/
def element (data : Array UInt8) (body : Nat → Outcome) (b : UInt8) (rest : Bytes) (d : Nat) :
    Outcome :=
  match Op.ofByte b with
  | .group =>
    match body d with
    | .reached _ e => .reached (afterElement b rest) e
    | .failed ps e => .failed ps e
    | .ended ps e => .ended ps e
  | .option =>
    match body d with
    | .reached _ e => .reached (afterElement b rest) e
    | .failed _ _ => .reached (afterElement b rest) d
    | .ended ps e => .ended ps e
  | op =>
    match data[d]? with
    | none => .failed (b :: rest) d
    | some c =>
      if accepts op b rest c then .reached (afterElement b rest) (d + 1)
      else .failed (b :: rest) d

/-- Repeats an element until it fails, stands still or has no data left, and goes on at `after`. -/
def repeated (once : Nat → Outcome) (after : Bytes) (size d : Nat) : Outcome :=
  if d < size then
    match once d with
    | .reached _ e => if d < e then repeated once after size e else .reached after d
    | .failed _ _ => .reached after d
    | .ended ps e => .ended ps e
  else .reached after d
termination_by size - d

/-- An element and the `+` behind it: the element has to match once, then as often as it can. -/
def item (data : Array UInt8) (body : Nat → Outcome) (b : UInt8) (rest : Bytes) (d : Nat) :
    Outcome :=
  match element data body b rest d with
  | .reached ps e =>
    if ps.head? = some Byte.plus then
      repeated (element data body b rest) (afterRun Byte.plus ps) data.size e
    else .reached ps e
  | .failed ps e => .failed ps e
  | .ended ps e => .ended ps e

/-! ### Scans -/

/-- The next candidate of a scan. -/
def candidate (hop : Option Hop) (data : Array UInt8) (d : Nat) : Nat :=
  match hop with
  | none => d
  | some hop => hop.next data d

/-- A candidate is never behind the position it is asked for. -/
theorem le_candidate (hop : Option Hop) (data : Array UInt8) {d : Nat} (h : d ≤ data.size) :
    d ≤ candidate hop data d := by
  cases hop with
  | none => exact Nat.le_refl d
  | some hop => exact hop.le_next data h

/-- The first candidate from `d` on at which `probe` does not fail. -/
def locate (hop : Option Hop) (data : Array UInt8) (probe : Nat → Outcome) (d : Nat) : Option Nat :=
  if d < data.size then
    let e := candidate hop data d
    if e < data.size then
      if (probe e).isFailed then locate hop data probe (e + 1) else some e
    else none
  else none
termination_by data.size - d
decreasing_by
  have := le_candidate hop data (d := d) (by omega)
  omega

/-! ### Blocks -/

/-- Runs an inner block that opens at the place `ps` with `inside`, which is told how many blocks
may still be entered from there.  Without room for it the block fails. -/
def enter (room : Nat) (ps : Bytes) (inside : Nat → Nat → Outcome) (d : Nat) : Outcome :=
  match room with
  | 0 => .failed ps d
  | inner + 1 => inside inner d

/-- What is left of a budget behind one item. -/
def spend (ops : Option Nat) : Option Nat := ops.map (· - 1)

/-- Runs the items of a block from the place `ps` and the position `d` on.

`room` is the number of blocks that may still be entered, `start` holds at the first byte of the
block, and `ops` is the number of items that may still be tried, if there is a limit.  A close ends
the block.  A boundary is skipped at the start and ends the whole match elsewhere.  With no data
left or no budget left, the run stops where it is.  A scan tries the item behind it as a block of
one item and goes on with it where that does not fail; with nothing behind it in its block it does
nothing. -/
def block (hopAt : Bytes → Option Hop) (data : Array UInt8) (room : Nat) (start : Bool)
    (ps : Bytes) (d : Nat) (ops : Option Nat) : Outcome :=
  match ps with
  | [] => .reached [] d
  | b :: rest =>
    match Op.ofByte b with
    | .close => .reached rest d
    | .boundary => if start then block hopAt data room false rest d ops else .ended rest d
    | op =>
      if data.size ≤ d ∨ ops = some 0 then .reached (b :: rest) d
      else
        match op with
        | .plus => block hopAt data room false rest d (spend ops)
        | .scan =>
          let target := afterRun Byte.scan rest
          if atBlockEnd target then block hopAt data room false target d (spend ops)
          else
            match locate (hopAt target) data
                (fun e => block hopAt data room true target e (some 1)) d with
            | none => .failed (b :: rest) d
            | some e => block hopAt data room false target e (spend ops)
        | _ =>
          let body := enter room (b :: rest) fun inner e => block hopAt data inner true rest e none
          match item data body b rest d with
          | .reached _ e => block hopAt data room false (afterItem b rest) e (spend ops)
          | .failed qs e => .failed qs e
          | .ended qs e => .ended qs e
termination_by ps.length
decreasing_by
  all_goals
    have := (afterRun_suffix Byte.scan rest).length_le
    have := (afterItem_suffix b rest).length_le
    simp only [List.length_cons]
    omega

section

variable {hopAt : Bytes → Option Hop} {data : Array UInt8} {room : Nat} {start : Bool}
  {b : UInt8} {rest : Bytes} {d : Nat} {ops : Option Nat}

/-- The end of the pattern ends every block. -/
@[simp] theorem block_nil : block hopAt data room start [] d ops = .reached [] d := by
  rw [block.eq_def]

/-- A close ends its block, also with no data and no budget left. -/
theorem block_close (h : Op.ofByte b = .close) :
    block hopAt data room start (b :: rest) d ops = .reached rest d := by
  rw [block.eq_def]
  simp only [h]

/-- A boundary at the start of a block is skipped. -/
theorem block_boundary_start (h : Op.ofByte b = .boundary) :
    block hopAt data room true (b :: rest) d ops = block hopAt data room false rest d ops := by
  rw [block.eq_def]
  simp only [h, if_true]

/-- Any other boundary ends the match. -/
theorem block_boundary (h : Op.ofByte b = .boundary) :
    block hopAt data room false (b :: rest) d ops = .ended rest d := by
  rw [block.eq_def]
  simp only [h, Bool.false_eq_true, if_false]

/-- A run stops in front of an item that it has no data or no budget for. -/
theorem block_stop (hc : Op.ofByte b ≠ .close) (hb : Op.ofByte b ≠ .boundary)
    (h : data.size ≤ d ∨ ops = some 0) :
    block hopAt data room start (b :: rest) d ops = .reached (b :: rest) d := by
  rw [block.eq_def]
  simp only [h, if_true]

/-- A `+` with no element in front of it does nothing. -/
theorem block_plus (h : Op.ofByte b = .plus) (hd : d < data.size) (ho : ops ≠ some 0) :
    block hopAt data room start (b :: rest) d ops =
      block hopAt data room false rest d (spend ops) := by
  rw [block.eq_def]
  simp only [h, ho, Nat.not_le.mpr hd, or_self, if_false]

/-- A scan goes on where it finds the item behind it. -/
theorem block_scan (h : Op.ofByte b = .scan) (hd : d < data.size) (ho : ops ≠ some 0) :
    block hopAt data room start (b :: rest) d ops =
      if atBlockEnd (afterRun Byte.scan rest) then
        block hopAt data room false (afterRun Byte.scan rest) d (spend ops)
      else
        match locate (hopAt (afterRun Byte.scan rest)) data
            (fun e => block hopAt data room true (afterRun Byte.scan rest) e (some 1)) d with
        | none => .failed (b :: rest) d
        | some e => block hopAt data room false (afterRun Byte.scan rest) e (spend ops) := by
  rw [block.eq_def]
  simp only [h, ho, Nat.not_le.mpr hd, or_self, if_false]

/-- Every other operator starts an item, and the run goes on behind it. -/
theorem block_item (hc : Op.ofByte b ≠ .close) (hb : Op.ofByte b ≠ .boundary)
    (hp : Op.ofByte b ≠ .plus) (hs : Op.ofByte b ≠ .scan) (hd : d < data.size)
    (ho : ops ≠ some 0) :
    block hopAt data room start (b :: rest) d ops =
      match item data
          (enter room (b :: rest) fun inner e => block hopAt data inner true rest e none)
          b rest d with
      | .reached _ e => block hopAt data room false (afterItem b rest) e (spend ops)
      | .failed qs e => .failed qs e
      | .ended qs e => .ended qs e := by
  rw [block.eq_def]
  simp only [ho, Nat.not_le.mpr hd, or_self, if_false]

end

/-! ### Whole matches -/

/-- Whether the operator at this place needs a data byte to match.  A scan with nothing behind it in
its block looks for nothing. -/
def needsData : Bytes → Bool
  | [] => false
  | b :: rest =>
    match Op.ofByte b with
    | .option => false
    | .boundary => false
    | .plus => false
    | .close => false
    | .scan => !atBlockEnd (afterRun Byte.scan rest)
    | _ => true

/-- Passes over a boundary at the start. -/
def afterBoundary : Bytes → Bytes
  | [] => []
  | b :: rest => if b == Byte.boundary then rest else b :: rest

/-- What bounds a match. -/
structure Bounds where
  /-- The number of items the outermost block may try; without it there is no limit. -/
  maxOps : Option Nat := none
  /-- The number of blocks that may be entered one inside the other. -/
  nesting : Nat := 256
  deriving DecidableEq

/-- A match from the place `ps` and the position `d`.  With no data left it fails at once if the
first operator needs a byte, unless it has no budget to try that operator. -/
def run (hopAt : Bytes → Option Hop) (bounds : Bounds) (ps : Bytes) (data : Array UInt8) (d : Nat) :
    Outcome :=
  if d = data.size ∧ bounds.maxOps ≠ some 0 ∧ needsData (afterBoundary ps) then
    .failed (afterBoundary ps) d
  else block hopAt data bounds.nesting true ps d bounds.maxOps

end LinearPattern
