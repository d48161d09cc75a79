import LinearPattern.Byte.Visible
import LinearPattern.Match.Encoded

/-!
# Reports

A report shows the pattern and the data of a match in four lines: each of the two, cut to a window
if it is long, and under it a caret at the position that the verdict gives.

* `excerpt`: the window that is shown of a long byte string;
* `Marked`: a byte string with a label, a mark and a note, and the two lines that show it;
* `reportText`, `report`: the report of a verdict.

The mark may be anywhere; a mark past the end is taken as the end (`Marked.pos_le`), and the window
always contains it (`excerpt_fst_le`, `le_excerpt_snd`).  So the bytes that are shown, and those in
front of the mark, can be cut out of the byte string (`Marked.textLine_eq`, `Marked.column_eq`), and
every verdict has a report.
-/

namespace LinearPattern

/-- The greatest number of bytes that is shown. -/
def windowSize : Nat := 64

/-- The part, from its start to its end, that is shown of a byte string marked at `mark`.  The mark
is in the middle where both sides have enough bytes. -/
def excerpt (length mark : Nat) : Nat × Nat :=
  if length ≤ windowSize then (0, length)
  else
    let start := min (mark - windowSize / 2) (length - windowSize)
    (start, start + windowSize)

theorem excerpt_fst_le (length mark : Nat) : (excerpt length mark).1 ≤ mark := by
  unfold excerpt
  split
  · exact Nat.zero_le mark
  · exact Nat.le_trans (Nat.min_le_left _ _) (Nat.sub_le mark _)

theorem le_excerpt_snd {length mark : Nat} (h : mark ≤ length) :
    mark ≤ (excerpt length mark).2 := by
  unfold excerpt
  split
  · exact h
  · simp only [windowSize] at *
    omega

theorem excerpt_snd_le (length mark : Nat) : (excerpt length mark).2 ≤ length := by
  unfold excerpt
  split
  · exact Nat.le_refl length
  · simp only [windowSize] at *
    omega

/-- A byte string with a mark in it. -/
structure Marked where
  label : String
  bytes : Bytes
  /-- The position that is marked. -/
  mark : Nat
  /-- What is written behind the caret. -/
  note : String

namespace Marked

/-- The marked position, which is the end for a mark past the end. -/
def pos (m : Marked) : Nat := min m.mark m.bytes.length

theorem pos_le (m : Marked) : m.pos ≤ m.bytes.length := Nat.min_le_right _ _

/-- The start of the excerpt. -/
def start (m : Marked) : Nat := (excerpt m.bytes.length m.pos).1

/-- The end of the excerpt. -/
def stop (m : Marked) : Nat := (excerpt m.bytes.length m.pos).2

theorem start_le (m : Marked) : m.start ≤ m.pos := excerpt_fst_le _ _

theorem le_stop (m : Marked) : m.pos ≤ m.stop := le_excerpt_snd m.pos_le

theorem stop_le (m : Marked) : m.stop ≤ m.bytes.length := excerpt_snd_le _ _

/-- The label with a colon, in nine columns. -/
def heading (m : Marked) : String := String.ofList ((m.label ++ ":").toList.rightpad 9 ' ')

/-- What stands in front of the excerpt. -/
def lead (m : Marked) : String := m.heading ++ if 0 < m.start then "..." else ""

/-- What stands behind the excerpt. -/
def tail (m : Marked) : String := if m.stop < m.bytes.length then "..." else ""

/-- The column of the caret: where the visible form of the marked byte begins. -/
def column (m : Marked) : Except OutOfRange Nat := do
  return m.lead.length + (visible (← slice m.bytes m.start m.pos)).length

/-- The line that shows the bytes. -/
def textLine (m : Marked) : Except OutOfRange String := do
  return m.lead ++ visible (← slice m.bytes m.start m.stop) ++ m.tail

/-- The line with the caret in a column. -/
def caretLine (m : Marked) (column : Nat) : String :=
  String.ofList (List.replicate column ' ') ++ "^ " ++ m.note

/-- The two lines. -/
def lines (m : Marked) : Except OutOfRange (List String) := do
  let column ← m.column
  return [← m.textLine, m.caretLine column]

/-- The bytes in front of the marked one can be cut out. -/
theorem column_eq (m : Marked) :
    m.column = .ok (m.lead.length + (visible (m.bytes.extract m.start m.pos)).length) := by
  rw [column, slice_eq m.start_le m.pos_le]
  rfl

/-- The bytes of the excerpt can be cut out. -/
theorem textLine_eq (m : Marked) :
    m.textLine = .ok (m.lead ++ visible (m.bytes.extract m.start m.stop) ++ m.tail) := by
  rw [textLine, slice_eq (Nat.le_trans m.start_le m.le_stop) m.stop_le]
  rfl

theorem exists_column (m : Marked) : ∃ column, m.column = .ok column := ⟨_, m.column_eq⟩

theorem exists_textLine (m : Marked) : ∃ text, m.textLine = .ok text := ⟨_, m.textLine_eq⟩

theorem exists_lines (m : Marked) : ∃ lines, m.lines = .ok lines := by
  obtain ⟨column, hcolumn⟩ := m.exists_column
  obtain ⟨text, htext⟩ := m.exists_textLine
  rw [lines, hcolumn, htext]
  exact ⟨_, rfl⟩

end Marked

/-- The pattern of a verdict, marked where it was read up to. -/
def markedPattern (pattern : Bytes) (e : Encoded) : Marked where
  label := "pattern"
  bytes := pattern
  mark := e.patternPos.toNat
  note := toString e.patternPos.toNat

/-- The data of a verdict, marked where a match ended or where the mismatch is. -/
def markedData (data : Bytes) (e : Encoded) : Marked where
  label := "data"
  bytes := data
  mark := (e.mismatchAt?.or e.dataEnd?).elim 0 UInt64.toNat
  note :=
    match e.mismatchAt? with
    | some d => s!"mismatch {d.toNat}"
    | none => s!"end {e.dataEnd?.elim 0 UInt64.toNat}"

/-- The four lines of a report. -/
def reportLines (pattern data : Bytes) (e : Encoded) : Except OutOfRange (List String) := do
  return (← (markedPattern pattern e).lines) ++ (← (markedData data e).lines)

/-- The report of a verdict, if all the bytes that it shows are there. -/
def reportText (pattern data : Bytes) (e : Encoded) : Except OutOfRange String := do
  return "\n".intercalate (← reportLines pattern data e)

/-- No byte that a report shows is out of range. -/
theorem reportText_ne_error (pattern data : Bytes) (e : Encoded) (out : OutOfRange) :
    reportText pattern data e ≠ .error out := by
  obtain ⟨lines, hpattern⟩ := (markedPattern pattern e).exists_lines
  obtain ⟨lines', hdata⟩ := (markedData data e).exists_lines
  rw [reportText, reportLines, hpattern, hdata]
  exact nofun

/-- The report of a verdict. -/
def report (pattern data : Bytes) (e : Encoded) : String :=
  match h : reportText pattern data e with
  | .ok text => text
  | .error out => absurd h (reportText_ne_error pattern data e out)

theorem reportText_eq (pattern data : Bytes) (e : Encoded) :
    reportText pattern data e = .ok (report pattern data e) := by
  unfold report
  split
  next text h => exact h
  next out h => exact absurd h (reportText_ne_error pattern data e out)

end LinearPattern
