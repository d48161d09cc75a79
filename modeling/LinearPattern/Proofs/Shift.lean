import LinearPattern.Matcher.Basic
import LinearPattern.Proofs.PlainScan
import LinearPattern.Proofs.Verdict

/-!
# Matches do not look back

A run reads the pattern and the data from where it starts on, and nothing in front of that.  Bytes
put in front of the pattern do not even show, as a place is what is left of a pattern; bytes put in
front of the data shift every position of the run by their number (`Config.outcome_shift`).  Hops,
which compute with positions, are out of the way, as a run without them comes to the same
(`run_plain`).

* `Outcome.shift`, `Verdict.shift`, `Match.within`: the same further on in the data, and for
  verdicts further on in the pattern;
* `Config.outcome_shift`, `run_shift`, `matchFrom_shift`: shift invariance.
-/

namespace LinearPattern

/-- The same outcome `k` bytes further on in the data. -/
def Outcome.shift (k : Nat) : Outcome → Outcome
  | .reached ps d => .reached ps (k + d)
  | .failed ps d => .failed ps (k + d)
  | .ended ps d => .ended ps (k + d)

@[simp] theorem Outcome.isFailed_shift (k : Nat) (o : Outcome) :
    (o.shift k).isFailed = o.isFailed := by
  cases o <;> rfl

variable {before data : Array UInt8}

/-! ### Elements, items and scans -/

section

variable {body body' : Nat → Outcome} {b : UInt8} {rest : Bytes}

theorem getElem?_append_add (before data : Array UInt8) (d : Nat) :
    (before ++ data)[before.size + d]? = data[d]? := by
  rw [Array.getElem?_append_right (Nat.le_add_right _ _), Nat.add_sub_cancel_left]

theorem element_shift {d : Nat} (h : body' (before.size + d) = (body d).shift before.size) :
    element (before ++ data) body' b rest (before.size + d) =
      (element data body b rest d).shift before.size := by
  by_cases hg : Op.ofByte b = .group
  · rw [element_group hg, element_group hg, h]
    cases body d <;> rfl
  by_cases ho : Op.ofByte b = .option
  · rw [element_option ho, element_option ho, h]
    cases body d <;> rfl
  · rw [element_of_single hg ho, element_of_single hg ho, getElem?_append_add]
    cases data[d]? with
    | none => rfl
    | some c =>
      simp only
      split
      · rfl
      · rfl

theorem repeated_shift {once once' : Nat → Outcome} (after : Bytes) (size : Nat) {k : Nat}
    (h : ∀ e, once' (k + e) = (once e).shift k) (d : Nat) :
    repeated once' after (k + size) (k + d) = (repeated once after size d).shift k := by
  fun_induction repeated once after size d with
  | case1 d hd ps e ho he ih =>
    rw [repeated, if_pos (Nat.add_lt_add_left hd k), h, ho]
    simp only [Outcome.shift, Nat.add_lt_add_left he k, if_true]
    exact ih
  | case2 d hd ps e ho he =>
    rw [repeated, if_pos (Nat.add_lt_add_left hd k), h, ho]
    simp only [Outcome.shift, Nat.add_lt_add_iff_left, he, if_false]
  | case3 d hd ps e ho =>
    rw [repeated, if_pos (Nat.add_lt_add_left hd k), h, ho]
    rfl
  | case4 d hd ps e ho =>
    rw [repeated, if_pos (Nat.add_lt_add_left hd k), h, ho]
    rfl
  | case5 d hd =>
    rw [repeated, if_neg (by rwa [Nat.add_lt_add_iff_left])]
    rfl

theorem item_shift (h : ∀ e, body' (before.size + e) = (body e).shift before.size) (d : Nat) :
    item (before ++ data) body' b rest (before.size + d) =
      (item data body b rest d).shift before.size := by
  unfold item
  rw [element_shift (h d)]
  cases element data body b rest d with
  | reached ps e =>
    simp only [Outcome.shift]
    split
    · rw [Array.size_append]
      exact repeated_shift _ _ (fun x => element_shift (h x)) e
    · rfl
  | failed ps e => rfl
  | ended ps e => rfl

end

theorem firstFrom_shift {test test' : Nat → Bool} (size : Nat) {k : Nat}
    (h : ∀ i, test' (k + i) = test i) (i : Nat) :
    firstFrom test' (k + size) (k + i) = k + firstFrom test size i := by
  fun_induction firstFrom test size i with
  | case1 i hi ht => rw [firstFrom_of_test (Nat.add_lt_add_left hi k) (by rwa [h])]
  | case2 i hi ht ih =>
    rw [firstFrom, if_pos (Nat.add_lt_add_left hi k), if_neg (by rwa [h])]
    exact ih
  | case3 i hi => rw [firstFrom_of_le (Nat.add_le_add_left (Nat.le_of_not_lt hi) k)]

theorem locate_shift {probe probe' : Nat → Outcome}
    (h : ∀ e, (probe' (before.size + e)).isFailed = (probe e).isFailed) (d : Nat) :
    locate none (before ++ data) probe' (before.size + d) =
      (locate none data probe d).map (before.size + ·) := by
  rw [locate_noHop, locate_noHop, firstSuccess, firstSuccess, Array.size_append,
    firstFrom_shift data.size (fun e => by rw [h]) d]
  simp only [Nat.add_lt_add_iff_left]
  split
  · rfl
  · rfl

/-! ### Blocks -/

namespace Config

/-- The same configuration `k` bytes further on in the data. -/
def shift (c : Config) (k : Nat) : Config := { c with pos := k + c.pos }

section

variable {c : Config}

/-- Runs from places shorter than this one come to the same, as many bytes further on as there are
in front of the data. -/
def ShiftsBelow (before data : Array UInt8) (c : Config) : Prop :=
  ∀ c' : Config, c'.place.length < c.place.length →
    (c'.shift before.size).outcome (fun _ => none) (before ++ data) =
      (c'.outcome (fun _ => none) data).shift before.size

theorem locate_probeAt_shift (ih : c.ShiftsBelow before data) {b : UInt8} {rest : Bytes}
    (hplace : c.place = b :: rest) :
    locate none (before ++ data)
        (probeAt (fun _ => none) (before ++ data) c.room (afterRun Byte.scan rest))
        (before.size + c.pos) =
      (locate none data (probeAt (fun _ => none) data c.room (afterRun Byte.scan rest))
        c.pos).map (before.size + ·) := by
  refine locate_shift (fun e => ?_) _
  have hprobe : probeAt (fun _ => none) (before ++ data) c.room (afterRun Byte.scan rest)
      (before.size + e) =
        (probeAt (fun _ => none) data c.room (afterRun Byte.scan rest) e).shift before.size := by
    refine ih ⟨c.room, true, afterRun Byte.scan rest, e, some 1⟩ ?_
    rw [hplace]
    exact Nat.lt_succ_of_le (afterRun_suffix _ _).length_le
  rw [hprobe, Outcome.isFailed_shift]

theorem item_bodyAt_shift (ih : c.ShiftsBelow before data) {b : UInt8} {rest : Bytes}
    (hplace : c.place = b :: rest) :
    item (before ++ data) (bodyAt (fun _ => none) (before ++ data) c.room b rest) b rest
        (before.size + c.pos) =
      (item data (bodyAt (fun _ => none) data c.room b rest) b rest c.pos).shift before.size := by
  refine item_shift (fun e => ?_) _
  cases c.room with
  | zero => rfl
  | succ inner =>
    refine ih ⟨inner, true, rest, e, none⟩ ?_
    rw [hplace]
    exact Nat.lt_succ_self _

theorem lt_size_shift {d : Nat} (hd : d < data.size) :
    before.size + d < (before ++ data).size := by
  rw [Array.size_append]
  exact Nat.add_lt_add_left hd _

/-- A step is taken further on, too. -/
theorem Step.shift {c' : Config} (h : Step (fun _ => none) data c c')
    (ih : c.ShiftsBelow before data) :
    Step (fun _ => none) (before ++ data) (c.shift before.size) (c'.shift before.size) := by
  cases h with
  | boundary h => exact .boundary h
  | plus h hd ho => exact .plus h (lt_size_shift hd) ho
  | scanNothing h hd ho ht => exact .scanNothing h (lt_size_shift hd) ho ht
  | scan h hd ho ht hl =>
    exact .scan h (lt_size_shift hd) ho ht (by rw [locate_probeAt_shift ih rfl, hl]; rfl)
  | item h hd ho hi =>
    exact .item h (lt_size_shift hd) ho ((item_bodyAt_shift ih rfl).trans (by rw [hi]; rfl))

/-- A block stops further on, too. -/
theorem Stop.shift {o : Outcome} (h : Stop (fun _ => none) data c o)
    (ih : c.ShiftsBelow before data) :
    Stop (fun _ => none) (before ++ data) (c.shift before.size) (o.shift before.size) := by
  cases h with
  | nil => exact .nil
  | close h => exact .close h
  | boundary h => exact .boundary h
  | idle hc hb h =>
    refine .idle hc hb (h.imp_left fun hend => ?_)
    rw [Array.size_append]
    exact Nat.add_le_add_left hend _
  | scan h hd ho ht hl =>
    exact .scan h (lt_size_shift hd) ho ht (by rw [locate_probeAt_shift ih rfl, hl]; rfl)
  | failed h hd ho hi =>
    exact .failed h (lt_size_shift hd) ho ((item_bodyAt_shift ih rfl).trans (by rw [hi]; rfl))
  | ended h hd ho hi =>
    exact .ended h (lt_size_shift hd) ho ((item_bodyAt_shift ih rfl).trans (by rw [hi]; rfl))

end

/-- A run comes to the same, as many bytes further on as there are in front of the data. -/
theorem outcome_shift (before : Array UInt8) (c : Config) :
    (c.shift before.size).outcome (fun _ => none) (before ++ data) =
      (c.outcome (fun _ => none) data).shift before.size := by
  induction c using induction with
  | h c ih =>
    rcases c.step_or_stop (fun _ => none) data with ⟨c', h⟩ | ⟨o, h⟩
    · rw [(h.shift ih).outcome_eq, h.outcome_eq]
      exact ih c' h.length_lt
    · rw [(h.shift ih).outcome_eq, h.outcome_eq]

end Config

/-! ### Whole matches -/

theorem run_shift (before : Array UInt8) (bounds : Bounds) (ps : Bytes) (data : Array UInt8)
    (d : Nat) :
    run Hop.of? bounds ps (before ++ data) (before.size + d) =
      (run Hop.of? bounds ps data d).shift before.size := by
  have hblock : block (fun _ => none) (before ++ data) bounds.nesting true ps (before.size + d)
      bounds.maxOps = (block (fun _ => none) data bounds.nesting true ps d bounds.maxOps).shift
        before.size :=
    Config.outcome_shift before ⟨bounds.nesting, true, ps, d, bounds.maxOps⟩
  rw [run_plain, run_plain, run, run, hblock, Array.size_append]
  simp only [Nat.add_left_cancel_iff]
  split
  · rfl
  · rfl

/-- The same verdict `p` bytes further on in the pattern and `d` bytes further on in the data. -/
def Verdict.shift (p d : Nat) : Verdict → Verdict
  | .matched pn e => .matched (p + pn) (d + e)
  | .mismatched pn e => .mismatched (p + pn) (d + e)

theorem Outcome.verdict_shift {o : Outcome} {pattern : Bytes} (h : o.place <:+ pattern)
    (front : Bytes) (k : Nat) :
    (o.shift k).verdict (front ++ pattern) = (o.verdict pattern).shift front.length k := by
  have hlength := h.length_le
  have hpos : (front ++ pattern).length - o.place.length =
      front.length + (pattern.length - o.place.length) := by
    rw [List.length_append]
    omega
  cases o with
  | reached ps d => exact congrArg (Verdict.matched · (k + d)) hpos
  | failed ps d => exact congrArg (Verdict.mismatched · (k + d)) hpos
  | ended ps d => exact congrArg (Verdict.matched · (k + d)) hpos

/-- A match with bytes in front of the pattern and of the data. -/
theorem matchFrom_append (bounds : Bounds) (front pattern : Bytes) (p : Nat)
    (before data : Array UInt8) (d : Nat) :
    matchFrom bounds (front ++ pattern) (front.length + p) (before ++ data) (before.size + d) =
      (matchFrom bounds pattern p data d).shift front.length before.size := by
  have hsuffix : (run Hop.of? bounds (pattern.drop p) data (min d data.size)).place <:+ pattern :=
    (run_suffix Hop.of? bounds (pattern.drop p) data _).trans (List.drop_suffix p pattern)
  rw [matchFrom, matchFrom, matchUsing, matchUsing, List.drop_length_add_append, Array.size_append,
    Nat.add_min_add_left, run_shift]
  exact Outcome.verdict_shift hsuffix front before.size

/-- A match of the rest of some data from position `k` on, as a match of the whole. -/
def Match.within (data : Array UInt8) (k : Nat) (m : Match) : Match where
  data := data
  start := k + m.start
  stop := k + m.stop
  patternEnd := m.patternEnd

/-- A matcher that is started in the middle of the data only sees what is left. -/
theorem Matcher.matchAt?_extract (m : Matcher) {data : Array UInt8} {start : Nat}
    (h : start ≤ data.size) :
    m.matchAt? data start = (m.matchAt? (data.extract start) 0).map (·.within data start) := by
  have hsplit : data.extract 0 start ++ data.extract start = data := by
    rw [Array.extract_append_extract, Nat.zero_min, Nat.max_eq_right h, Array.extract_size]
  have hstart : (data.extract 0 start).size = start := by
    rw [Array.size_extract, Nat.sub_zero, Nat.min_eq_left h]
  have hverdict : matchFrom m.bounds m.pattern 0 data start =
      (matchFrom m.bounds m.pattern 0 (data.extract start) 0).shift 0 start := by
    have happend := matchFrom_append m.bounds [] m.pattern 0 (data.extract 0 start)
      (data.extract start) 0
    rwa [hsplit, hstart] at happend
  unfold matchAt? exec
  rw [if_neg (Nat.not_lt.mpr h), if_neg (Nat.not_lt_zero _), hverdict]
  cases matchFrom m.bounds m.pattern 0 (data.extract start) 0 with
  | matched pn e => simp [Verdict.shift, Match.within]
  | mismatched pn e => rfl

/-- **A match never looks behind its start.**  With bytes in front of the pattern and of the data,
and started behind them, it comes to the same verdict that many bytes further on.  So a matcher
started in the middle of the data does what it does at the start of the rest. -/
theorem matchFrom_shift (bounds : Bounds) (front pattern : Bytes) (p : Nat)
    (before data : Array UInt8) (d : Nat) :
    matchFrom bounds (front ++ pattern) (front.length + p) (before ++ data) (before.size + d) =
        (matchFrom bounds pattern p data d).shift front.length before.size ∧
      ∀ (m : Matcher) (whole : Array UInt8) (start : Nat), start ≤ whole.size →
        m.matchAt? whole start =
          (m.matchAt? (whole.extract start) 0).map (·.within whole start) :=
  ⟨matchFrom_append bounds front pattern p before data d, fun m _ _ h => m.matchAt?_extract h⟩

/-- `~(ab)+#` on `abxxabab1`, started behind the first `b`: the run of the group is found from there
on, as it is in `xxabab1`. -/
theorem matchFrom_shift_scan :
    let m : Matcher := ⟨[126, 40, 97, 98, 41, 43, 35], { maxOps := none, nesting := 1 }⟩
    let whole : Array UInt8 := #[97, 98, 120, 120, 97, 98, 97, 98, 49]
    2 ≤ whole.size ∧
      (m.matchAt? whole 2).map (fun x => (x.start, x.stop, x.patternEnd)) = some (2, 9, 7) := by
  intro m whole
  have hstart : 2 ≤ whole.size := by decide
  refine ⟨hstart, ?_⟩
  rw [(matchFrom_shift {} [] [] 0 #[] #[] 0).2 m whole 2 hstart]
  decide +kernel

end LinearPattern
