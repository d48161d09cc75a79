import LinearPattern.Match.Report
import LinearPattern.Proofs.Encoded

/-!
# What a report points at

A report has four lines, and both of its carets stand under the byte that the verdict gives, also
for numbers that no match comes to: a mark behind the end points behind the last byte.  All the
bytes that a report asks for are there.

* `Window`: what holds of the part that is shown of a byte string;
* `PointsAt`: what the two lines for a byte string show, written without the way they are made;
* `Marked.pointsAt`: the two lines of a marked byte string;
* `splitOn_report`: a report is divided at its three line feeds, and nowhere else;
* `report_pointsAt`: the report of any two numbers.

The text in front of the marked byte is as long as the line of the caret has spaces, since the same
bytes are made visible twice: `visible` maps a byte string byte by byte (`visible_append`).
-/

namespace LinearPattern

/-! ### Windows -/

/-- The part from `start` to `stop` of `length` bytes, cut to 64 of them, is around position `pos`;
the position is behind the last byte of it only at the end of all bytes. -/
structure Window (length pos start stop : Nat) : Prop where
  size_eq : stop - start = min length 64
  start_le : start ≤ pos
  le_stop : pos ≤ stop
  stop_le : stop ≤ length
  eq_length : pos = stop → pos = length

theorem excerpt_window {length mark : Nat} (h : mark ≤ length) :
    Window length mark (excerpt length mark).1 (excerpt length mark).2 := by
  have hstart := excerpt_fst_le length mark
  have hle := le_excerpt_snd h
  have hstop := excerpt_snd_le length mark
  unfold excerpt windowSize at *
  by_cases hshort : length ≤ 64
  · simp only [if_pos hshort] at *
    exact ⟨(Nat.min_eq_left hshort).symm, hstart, hle, hstop, id⟩
  · simp only [if_neg hshort] at *
    refine ⟨?_, hstart, hle, hstop, ?_⟩ <;> omega

/-! ### Visible text -/

theorem visible_append (front back : Bytes) :
    visible (front ++ back) = visible front ++ visible back := by
  rw [← String.toList_inj, String.toList_append, toList_visible, toList_visible, toList_visible,
    List.flatMap_append]

theorem newline_not_mem_visibleByte (b : UInt8) : '\n' ∉ visibleByte b := by
  have hall : ∀ n < 256, '\n' ∉ visibleByte (UInt8.ofNat n) := by decide +kernel
  have hb := hall b.toNat b.toNat_lt
  rwa [UInt8.ofNat_toNat] at hb

theorem newline_not_mem_visible (bytes : Bytes) : '\n' ∉ (visible bytes).toList := by
  rw [toList_visible, List.mem_flatMap]
  rintro ⟨b, -, hb⟩
  exact newline_not_mem_visibleByte b hb

theorem newline_not_mem_toString (n : Nat) : '\n' ∉ (toString n).toList := by
  intro h
  have hdigit := Nat.isDigit_of_mem_toDigits (by decide) (by decide) (Nat.toList_repr ▸ h)
  cases hdigit

/-! ### The two lines of a byte string -/

/-- Three dots, where something is left out. -/
def dots (left : Prop) [Decidable left] : String := if left then "..." else ""

/-- What stands in front of the byte at position `pos`, in a line that shows bytes from `start`
on. -/
def frontOf (heading : String) (bytes : Bytes) (start pos : Nat) : String :=
  heading ++ dots (0 < start) ++ visible (bytes.extract start pos)

/-- The line `text` shows a byte string behind a heading, from `start` to `stop`, and the line
`caret` points at position `pos`, with a note. -/
structure PointsAt (heading note : String) (bytes : Bytes) (pos start stop : Nat)
    (text caret : String) : Prop where
  window : Window bytes.length pos start stop
  /-- Dots stand where bytes are left out. -/
  text_eq : text = heading ++ dots (0 < start) ++ visible (bytes.extract start stop) ++
    dots (stop < bytes.length)
  /-- There are only spaces in front of the caret. -/
  caret_eq : caret =
    String.ofList (List.replicate (frontOf heading bytes start pos).length ' ') ++ "^ " ++ note
  /-- Above the caret the visible form of the byte begins. -/
  byte : ∀ b, bytes[pos]? = some b →
    (frontOf heading bytes start pos).toList ++ visibleByte b <+: text.toList
  /-- Behind the last byte there is nothing above the caret. -/
  behind : pos = bytes.length → text = frontOf heading bytes start pos

section

variable {bytes : Bytes} {i j k : Nat} {b : UInt8}

/-- Two extracts, one behind the other, are one extract. -/
theorem extract_append (hij : i ≤ j) (hjk : j ≤ k) :
    bytes.extract i j ++ bytes.extract j k = bytes.extract i k := by
  have hdrop : (bytes.drop i).drop (j - i) = bytes.drop j := by
    rw [List.drop_drop, Nat.add_sub_cancel' hij]
  have hlength : k - i = (j - i) + (k - j) := by omega
  rw [List.extract_eq_take_drop, List.extract_eq_take_drop, List.extract_eq_take_drop, hlength,
    List.take_add, hdrop]

/-- An extract starts with the byte at its start. -/
theorem extract_cons (hij : i < j) (hb : bytes[i]? = some b) :
    bytes.extract i j = b :: bytes.extract (i + 1) j := by
  have hlength : j - i = (j - (i + 1)) + 1 := by omega
  rw [List.extract_eq_take_drop, List.drop_eq_getElem?_toList_append, hb, hlength]
  rfl

end

namespace Marked

variable (m : Marked)

theorem window : Window m.bytes.length m.pos m.start m.stop := excerpt_window m.pos_le

/-- What the line shows, divided at the marked byte. -/
theorem textLine_divided {text : String} (h : m.textLine = .ok text) :
    text = frontOf m.heading m.bytes m.start m.pos ++
      (visible (m.bytes.extract m.pos m.stop) ++ m.tail) := by
  rw [textLine_eq, Except.ok.injEq] at h
  rw [← h, lead, frontOf, ← extract_append m.start_le m.le_stop, visible_append]
  simp only [String.append_assoc]
  rfl

/-- The two lines point at the marked position. -/
theorem pointsAt {text : String} {column : Nat} (htext : m.textLine = .ok text)
    (hcolumn : m.column = .ok column) :
    PointsAt m.heading m.note m.bytes m.pos m.start m.stop text (m.caretLine column) where
  window := m.window
  text_eq := by
    rw [textLine_eq, Except.ok.injEq] at htext
    exact htext.symm
  caret_eq := by
    rw [column_eq, Except.ok.injEq] at hcolumn
    rw [caretLine, ← hcolumn, frontOf, String.length_append]
    rfl
  byte b hb := by
    have hlt : m.pos < m.stop := by
      refine Nat.lt_of_le_of_ne m.le_stop fun hend => ?_
      rw [m.window.eq_length hend, List.getElem?_eq_none (Nat.le_refl _)] at hb
      cases hb
    rw [m.textLine_divided htext, extract_cons hlt hb, String.toList_append, String.toList_append,
      toList_visible, List.flatMap_cons, List.append_assoc, ← List.append_assoc]
    exact List.prefix_append _ _
  behind hpos := by
    have hstop : m.stop = m.bytes.length := Nat.le_antisymm m.stop_le (hpos ▸ m.le_stop)
    have hextract : m.bytes.extract m.pos m.stop = [] := by
      rw [hpos, hstop]
      simp
    rw [m.textLine_divided htext, hextract, tail, if_neg (by omega)]
    simp [visible]

/-- Both lines are single lines, if the label and the note are. -/
theorem newline_not_mem_textLine {text : String} (htext : m.textLine = .ok text)
    (hlabel : '\n' ∉ m.label.toList) : '\n' ∉ text.toList := by
  have hdots (left : Prop) [Decidable left] : '\n' ∉ (dots left).toList := by
    unfold dots
    split <;> decide
  have hheading : '\n' ∉ m.heading.toList := by
    simp [heading, List.rightpad, hlabel]
  rw [(m.pointsAt htext m.column_eq).text_eq]
  simp only [String.toList_append, List.mem_append, not_or]
  exact ⟨⟨⟨hheading, hdots _⟩, newline_not_mem_visible _⟩, hdots _⟩

theorem newline_not_mem_caretLine (hnote : '\n' ∉ m.note.toList) (column : Nat) :
    '\n' ∉ (m.caretLine column).toList := by
  simp [caretLine, hnote]

end Marked

/-! ### The four lines -/

variable (pattern data : Bytes) (e : Encoded)

theorem markedPattern_heading : (markedPattern pattern e).heading = "pattern: " := by
  simp [Marked.heading, markedPattern, List.rightpad]

theorem markedData_heading : (markedData data e).heading = "data:    " := by
  simp [Marked.heading, markedData, List.rightpad, List.replicate]

theorem markedData_mark : (markedData data e).mark = e.dataPos := e.mismatchAt?_or_dataEnd?

/-- The note under the data says what happened there, and where it was. -/
def dataNote (e : Encoded) : String :=
  (if 0 ≤ e.dataWord.toInt then "end " else "mismatch ") ++ toString e.dataPos

theorem markedData_note : (markedData data e).note = dataNote e := by
  have hpos := e.mismatchAt?_or_dataEnd?
  unfold markedData dataNote
  by_cases h : 0 ≤ e.dataWord.toInt
  · rw [Encoded.mismatchAt?_of_nonneg h, Option.none_or] at hpos
    rw [Encoded.mismatchAt?_of_nonneg h, if_pos h, ← hpos]
    rfl
  · rw [Encoded.mismatchAt?_of_neg h, Option.some_or] at hpos
    rw [Encoded.mismatchAt?_of_neg h, if_neg h, ← hpos]
    rfl

theorem newline_not_mem_dataNote : '\n' ∉ (dataNote e).toList := by
  rw [dataNote, String.toList_append, List.mem_append, not_or]
  refine ⟨?_, newline_not_mem_toString _⟩
  split <;> decide

/-- The lines of a report: those of the pattern and those of the data. -/
theorem reportLines_eq {patternText dataText : String} {patternColumn dataColumn : Nat}
    (hpatternText : (markedPattern pattern e).textLine = .ok patternText)
    (hpatternColumn : (markedPattern pattern e).column = .ok patternColumn)
    (hdataText : (markedData data e).textLine = .ok dataText)
    (hdataColumn : (markedData data e).column = .ok dataColumn) :
    reportLines pattern data e =
      .ok [patternText, (markedPattern pattern e).caretLine patternColumn, dataText,
        (markedData data e).caretLine dataColumn] := by
  rw [reportLines, Marked.lines, Marked.lines, hpatternText, hpatternColumn, hdataText, hdataColumn]
  rfl

/-- No line of a report is divided. -/
theorem newline_not_mem_of_mem_reportLines {lines : List String}
    (h : reportLines pattern data e = .ok lines) : ∀ line ∈ lines, '\n' ∉ line.toList := by
  have hpattern := (markedPattern pattern e).textLine_eq
  have hdata := (markedData data e).textLine_eq
  rw [reportLines_eq pattern data e hpattern (Marked.column_eq _) hdata (Marked.column_eq _),
    Except.ok.injEq] at h
  rw [← h]
  simp only [List.forall_mem_cons, List.not_mem_nil, false_imp_iff, implies_true, and_true]
  refine ⟨Marked.newline_not_mem_textLine _ hpattern ?_, Marked.newline_not_mem_caretLine _ ?_ _,
    Marked.newline_not_mem_textLine _ hdata ?_, Marked.newline_not_mem_caretLine _ ?_ _⟩
  · show '\n' ∉ "pattern".toList
    decide
  · exact newline_not_mem_toString _
  · show '\n' ∉ "data".toList
    decide
  · rw [markedData_note]
    exact newline_not_mem_dataNote e

/-- A report is the four lines that it is made of. -/
theorem splitOn_report {lines : List String} (h : reportLines pattern data e = .ok lines)
    (hne : lines ≠ []) :
    (report pattern data e).toList.splitOn '\n' = lines.map String.toList := by
  have htext := reportText_eq pattern data e
  rw [reportText, h] at htext
  rw [← Except.ok.inj htext, String.toList_intercalate]
  refine List.splitOn_intercalate _ ?_ (mt List.map_eq_nil_iff.mp hne)
  intro line hline
  obtain ⟨text, htext, rfl⟩ := List.mem_map.mp hline
  exact newline_not_mem_of_mem_reportLines pattern data e h text htext

/-- **A report points at the bytes that its numbers stand for**, and all the bytes that it asks for
are there.  It has four lines.  The caret of the first two is under the byte of the pattern that the
first number stands for, the other one under the byte of the data that the signed number stands for.
A number behind the end stands for the end. -/
theorem report_pointsAt :
    reportText pattern data e = .ok (report pattern data e) ∧
    ∃ patternText patternCaret dataText dataCaret : String,
      (report pattern data e).toList.splitOn '\n' =
        [patternText, patternCaret, dataText, dataCaret].map String.toList ∧
      (let pos := min e.patternPos.toNat pattern.length
        let window := excerpt pattern.length pos
        PointsAt "pattern: " (toString e.patternPos.toNat) pattern pos window.1 window.2
          patternText patternCaret) ∧
      (let pos := min e.dataPos data.length
        let window := excerpt data.length pos
        PointsAt "data:    " (dataNote e) data pos window.1 window.2 dataText dataCaret) := by
  obtain ⟨patternText, hpatternText⟩ := (markedPattern pattern e).exists_textLine
  obtain ⟨patternColumn, hpatternColumn⟩ := (markedPattern pattern e).exists_column
  obtain ⟨dataText, hdataText⟩ := (markedData data e).exists_textLine
  obtain ⟨dataColumn, hdataColumn⟩ := (markedData data e).exists_column
  have hlines := reportLines_eq pattern data e hpatternText hpatternColumn hdataText hdataColumn
  have hpattern := (markedPattern pattern e).pointsAt hpatternText hpatternColumn
  have hdata := (markedData data e).pointsAt hdataText hdataColumn
  rw [markedPattern_heading] at hpattern
  rw [markedData_heading, markedData_note, Marked.start, Marked.stop, Marked.pos,
    markedData_mark] at hdata
  exact ⟨reportText_eq pattern data e, _, _, _, _,
    splitOn_report pattern data e hlines (List.cons_ne_nil _ _), hpattern, hdata⟩

/-- A number far behind the end of a pattern is marked behind its last byte. -/
example : report [0x61, 0x00] [0x62] ⟨0xffffffffffffffff, -1⟩ =
    "pattern: a\\x00\n              ^ 18446744073709551615\ndata:    b\n         ^ mismatch 0" := by
  decide +kernel

end LinearPattern
