import LinearPattern.Proofs.Item

/-!
# A block as a machine

`block` executes the items of a block one after another.  Here one item is one step, so that what
holds of a whole run can be proved from what holds of its steps.

* `Config`: what a block holds in front of its next item, and `Config.outcome`, how it ends from
  there;
* `Config.Step`: one item is done with, and the same block goes on;
* `Config.Stop`: the block ends here, with this outcome;
* `Config.outcome_rec`: a relation between configurations and outcomes holds of every run if it
  holds where a block stops and is kept by every step;
* `Config.Agree`: two machines, with hops and room of their own, come to the same in front of the
  next item, and `Config.outcome_of_agree`, by which they then end in the same way.

Both relations say all that a block can do (`Config.step_or_stop`): a step keeps the outcome
(`Config.Step.outcome_eq`) and shortens the place (`Config.Step.length_lt`).
-/

namespace LinearPattern

/-- The operators that start an element; the others are items of their own or no items at all. -/
def Op.startsElement : Op → Bool
  | .close => false
  | .boundary => false
  | .plus => false
  | .scan => false
  | _ => true

theorem Op.startsElement_eq_true {op : Op} :
    op.startsElement = true ↔ op ≠ .close ∧ op ≠ .boundary ∧ op ≠ .plus ∧ op ≠ .scan := by
  cases op <;> simp [Op.startsElement]

theorem Op.ofByte_of_not_isOperator {b : UInt8} (h : Byte.isOperator b = false) :
    Op.ofByte b = .literal := by
  simpa only [Byte.isOperator, bne_eq_false_iff_eq] using h

/-- What a block holds in front of its next item. -/
structure Config where
  /-- The number of blocks that may still be entered. -/
  room : Nat
  /-- Nothing of the block has been read yet. -/
  start : Bool
  place : Bytes
  pos : Nat
  /-- The number of items that may still be tried, if there is a limit. -/
  ops : Option Nat

/-- How the block ends. -/
def Config.outcome (hopAt : Bytes → Option Hop) (data : Array UInt8) (c : Config) : Outcome :=
  block hopAt data c.room c.start c.place c.pos c.ops

/-- The run of the block that opens in front of `rest`, as a function of the position. -/
def bodyAt (hopAt : Bytes → Option Hop) (data : Array UInt8) (room : Nat) (b : UInt8)
    (rest : Bytes) : Nat → Outcome :=
  enter room (b :: rest) fun inner e => block hopAt data inner true rest e none

/-- The probe of a scan for the item at `target`, as a function of the position. -/
def probeAt (hopAt : Bytes → Option Hop) (data : Array UInt8) (room : Nat) (target : Bytes) :
    Nat → Outcome :=
  fun e => block hopAt data room true target e (some 1)

variable {hopAt : Bytes → Option Hop} {data : Array UInt8}

/-- `block_item` with the operators that start an item named by one test. -/
theorem block_element {room : Nat} {start : Bool} {b : UInt8} {rest : Bytes} {d : Nat}
    {ops : Option Nat} (h : (Op.ofByte b).startsElement) (hd : d < data.size) (ho : ops ≠ some 0) :
    block hopAt data room start (b :: rest) d ops =
      match item data (bodyAt hopAt data room b rest) b rest d with
      | .reached _ e => block hopAt data room false (afterItem b rest) e (spend ops)
      | .failed qs e => .failed qs e
      | .ended qs e => .ended qs e := by
  obtain ⟨hc, hb, hp, hs⟩ := Op.startsElement_eq_true.mp h
  exact block_item hc hb hp hs hd ho

/-- `block_scan` with the probe of the scan by its name. -/
theorem block_scan_probe {room : Nat} {start : Bool} {b : UInt8} {rest : Bytes} {d : Nat}
    {ops : Option Nat} (h : Op.ofByte b = .scan) (hd : d < data.size) (ho : ops ≠ some 0) :
    block hopAt data room start (b :: rest) d ops =
      if atBlockEnd (afterRun Byte.scan rest) then
        block hopAt data room false (afterRun Byte.scan rest) d (spend ops)
      else
        match locate (hopAt (afterRun Byte.scan rest)) data
            (probeAt hopAt data room (afterRun Byte.scan rest)) d with
        | none => .failed (b :: rest) d
        | some e => block hopAt data room false (afterRun Byte.scan rest) e (spend ops) :=
  block_scan h hd ho

namespace Config

section

variable (hopAt data)

/-- One item is done with, and the block goes on behind it. -/
inductive Step : Config → Config → Prop
  | boundary {room b rest d ops} (h : Op.ofByte b = .boundary) :
      Step ⟨room, true, b :: rest, d, ops⟩ ⟨room, false, rest, d, ops⟩
  | plus {room start b rest d ops} (h : Op.ofByte b = .plus) (hd : d < data.size)
      (ho : ops ≠ some 0) :
      Step ⟨room, start, b :: rest, d, ops⟩ ⟨room, false, rest, d, spend ops⟩
  | scanNothing {room start b rest d ops} (h : Op.ofByte b = .scan) (hd : d < data.size)
      (ho : ops ≠ some 0) (ht : atBlockEnd (afterRun Byte.scan rest)) :
      Step ⟨room, start, b :: rest, d, ops⟩
        ⟨room, false, afterRun Byte.scan rest, d, spend ops⟩
  | scan {room start b rest d ops e} (h : Op.ofByte b = .scan) (hd : d < data.size)
      (ho : ops ≠ some 0) (ht : ¬atBlockEnd (afterRun Byte.scan rest))
      (hl : locate (hopAt (afterRun Byte.scan rest)) data
        (probeAt hopAt data room (afterRun Byte.scan rest)) d = some e) :
      Step ⟨room, start, b :: rest, d, ops⟩
        ⟨room, false, afterRun Byte.scan rest, e, spend ops⟩
  | item {room start b rest d ops qs e} (h : (Op.ofByte b).startsElement) (hd : d < data.size)
      (ho : ops ≠ some 0)
      (hi : item data (bodyAt hopAt data room b rest) b rest d = .reached qs e) :
      Step ⟨room, start, b :: rest, d, ops⟩ ⟨room, false, afterItem b rest, e, spend ops⟩

/-- The block ends here. -/
inductive Stop : Config → Outcome → Prop
  | nil {room start d ops} : Stop ⟨room, start, [], d, ops⟩ (.reached [] d)
  | close {room start b rest d ops} (h : Op.ofByte b = .close) :
      Stop ⟨room, start, b :: rest, d, ops⟩ (.reached rest d)
  | boundary {room b rest d ops} (h : Op.ofByte b = .boundary) :
      Stop ⟨room, false, b :: rest, d, ops⟩ (.ended rest d)
  | idle {room start b rest d ops} (hc : Op.ofByte b ≠ .close) (hb : Op.ofByte b ≠ .boundary)
      (h : data.size ≤ d ∨ ops = some 0) :
      Stop ⟨room, start, b :: rest, d, ops⟩ (.reached (b :: rest) d)
  | scan {room start b rest d ops} (h : Op.ofByte b = .scan) (hd : d < data.size)
      (ho : ops ≠ some 0) (ht : ¬atBlockEnd (afterRun Byte.scan rest))
      (hl : locate (hopAt (afterRun Byte.scan rest)) data
        (probeAt hopAt data room (afterRun Byte.scan rest)) d = none) :
      Stop ⟨room, start, b :: rest, d, ops⟩ (.failed (b :: rest) d)
  | failed {room start b rest d ops qs e} (h : (Op.ofByte b).startsElement) (hd : d < data.size)
      (ho : ops ≠ some 0)
      (hi : item data (bodyAt hopAt data room b rest) b rest d = .failed qs e) :
      Stop ⟨room, start, b :: rest, d, ops⟩ (.failed qs e)
  | ended {room start b rest d ops qs e} (h : (Op.ofByte b).startsElement) (hd : d < data.size)
      (ho : ops ≠ some 0)
      (hi : item data (bodyAt hopAt data room b rest) b rest d = .ended qs e) :
      Stop ⟨room, start, b :: rest, d, ops⟩ (.ended qs e)

end

/-! ### The machine runs the block -/

theorem Step.outcome_eq {c c' : Config} (h : Step hopAt data c c') :
    c.outcome hopAt data = c'.outcome hopAt data := by
  cases h with
  | boundary h => exact block_boundary_start h
  | plus h hd ho => exact block_plus h hd ho
  | scanNothing h hd ho ht => exact (block_scan_probe h hd ho).trans (if_pos ht)
  | scan h hd ho ht hl =>
    refine (block_scan_probe h hd ho).trans ((if_neg ht).trans ?_)
    rw [hl]
    rfl
  | item h hd ho hi =>
    refine (block_element h hd ho).trans ?_
    rw [hi]
    rfl

theorem Stop.outcome_eq {c : Config} {o : Outcome} (h : Stop hopAt data c o) :
    c.outcome hopAt data = o := by
  cases h with
  | nil => exact block_nil
  | close h => exact block_close h
  | boundary h => exact block_boundary h
  | idle hc hb h => exact block_stop hc hb h
  | scan h hd ho ht hl =>
    refine (block_scan_probe h hd ho).trans ((if_neg ht).trans ?_)
    rw [hl]
  | failed h hd ho hi =>
    refine (block_element h hd ho).trans ?_
    rw [hi]
  | ended h hd ho hi =>
    refine (block_element h hd ho).trans ?_
    rw [hi]

variable (hopAt data) in
/-- A block either goes on or ends. -/
theorem step_or_stop (c : Config) :
    (∃ c', Step hopAt data c c') ∨ ∃ o, Stop hopAt data c o := by
  obtain ⟨room, start, place, d, ops⟩ := c
  cases place with
  | nil => exact .inr ⟨_, .nil⟩
  | cons b rest =>
    by_cases hc : Op.ofByte b = .close
    · exact .inr ⟨_, .close hc⟩
    by_cases hb : Op.ofByte b = .boundary
    · cases start with
      | true => exact .inl ⟨_, .boundary hb⟩
      | false => exact .inr ⟨_, .boundary hb⟩
    by_cases h : data.size ≤ d ∨ ops = some 0
    · exact .inr ⟨_, .idle hc hb h⟩
    obtain ⟨hd, ho⟩ := not_or.mp h
    rw [Nat.not_le] at hd
    by_cases hp : Op.ofByte b = .plus
    · exact .inl ⟨_, .plus hp hd ho⟩
    by_cases hs : Op.ofByte b = .scan
    · by_cases ht : atBlockEnd (afterRun Byte.scan rest)
      · exact .inl ⟨_, .scanNothing hs hd ho ht⟩
      · cases hl : locate (hopAt (afterRun Byte.scan rest)) data
            (probeAt hopAt data room (afterRun Byte.scan rest)) d with
        | none => exact .inr ⟨_, .scan hs hd ho ht hl⟩
        | some e => exact .inl ⟨_, .scan hs hd ho ht hl⟩
    have he := Op.startsElement_eq_true.mpr ⟨hc, hb, hp, hs⟩
    cases hi : item data (bodyAt hopAt data room b rest) b rest d with
    | reached qs e => exact .inl ⟨_, .item he hd ho hi⟩
    | failed qs e => exact .inr ⟨_, .failed he hd ho hi⟩
    | ended qs e => exact .inr ⟨_, .ended he hd ho hi⟩

theorem Step.suffix {c c' : Config} (h : Step hopAt data c c') :
    ∃ b rest, c.place = b :: rest ∧ c'.place <:+ rest := by
  cases h with
  | boundary => exact ⟨_, _, rfl, List.suffix_refl _⟩
  | plus => exact ⟨_, _, rfl, List.suffix_refl _⟩
  | scanNothing => exact ⟨_, _, rfl, afterRun_suffix _ _⟩
  | scan => exact ⟨_, _, rfl, afterRun_suffix _ _⟩
  | item => exact ⟨_, _, rfl, afterItem_suffix _ _⟩

/-- No step changes the room of its block. -/
theorem Step.room_eq {c c' : Config} (h : Step hopAt data c c') : c'.room = c.room := by
  cases h <;> rfl

/-- Every step reads some of the pattern, so a block comes to an end. -/
theorem Step.length_lt {c c' : Config} (h : Step hopAt data c c') :
    c'.place.length < c.place.length := by
  obtain ⟨b, rest, hc, hs⟩ := h.suffix
  rw [hc, List.length_cons]
  exact Nat.lt_succ_of_le hs.length_le

/-- A relation that holds where a block ends, and that every step keeps, holds of every run. -/
theorem outcome_rec {motive : Config → Outcome → Prop}
    (stop : ∀ c o, Stop hopAt data c o → motive c o)
    (step : ∀ c c' o, Step hopAt data c c' → motive c' o → motive c o) (c : Config) :
    motive c (c.outcome hopAt data) := by
  rcases c.step_or_stop hopAt data with ⟨c', h⟩ | ⟨o, h⟩
  · rw [h.outcome_eq]
    exact step c c' _ h (outcome_rec stop step c')
  · rw [h.outcome_eq]
    exact stop c o h
termination_by c.place.length
decreasing_by exact h.length_lt

/-- What holds of a configuration if it holds of all with a shorter place holds of all. -/
theorem induction {motive : Config → Prop}
    (h : ∀ c, (∀ c', c'.place.length < c.place.length → motive c') → motive c) (c : Config) :
    motive c :=
  (measure fun c : Config => c.place.length).wf.induction c h

/-! ### Two machines -/

section

variable (hopAt hopAt' : Bytes → Option Hop) (data : Array UInt8)

/-- In front of its next item, a block comes to the same with other hops and with other room: a scan
finds the same position, and an item has the same outcome. -/
structure Agree (c : Config) (room' : Nat) : Prop where
  scan : ∀ b rest, c.place = b :: rest → Op.ofByte b = .scan → c.pos < data.size →
    c.ops ≠ some 0 → ¬atBlockEnd (afterRun Byte.scan rest) →
    locate (hopAt' (afterRun Byte.scan rest)) data
        (probeAt hopAt' data room' (afterRun Byte.scan rest)) c.pos =
      locate (hopAt (afterRun Byte.scan rest)) data
        (probeAt hopAt data c.room (afterRun Byte.scan rest)) c.pos
  item : ∀ b rest, c.place = b :: rest → c.pos < data.size → c.ops ≠ some 0 →
    item data (bodyAt hopAt' data room' b rest) b rest c.pos =
      item data (bodyAt hopAt data c.room b rest) b rest c.pos

end

/-- The same configuration with other room. -/
def setRoom (c : Config) (room' : Nat) : Config := { c with room := room' }

variable {hopAt' : Bytes → Option Hop}

theorem Step.of_agree {c c' : Config} {room' : Nat} (ha : Agree hopAt hopAt' data c room')
    (h : Step hopAt data c c') : Step hopAt' data (c.setRoom room') (c'.setRoom room') := by
  cases h with
  | boundary h => exact .boundary h
  | plus h hd ho => exact .plus h hd ho
  | scanNothing h hd ho ht => exact .scanNothing h hd ho ht
  | scan h hd ho ht hl => exact .scan h hd ho ht ((ha.scan _ _ rfl h hd ho ht).trans hl)
  | item h hd ho hi => exact .item h hd ho ((ha.item _ _ rfl hd ho).trans hi)

theorem Stop.of_agree {c : Config} {o : Outcome} {room' : Nat}
    (ha : Agree hopAt hopAt' data c room') (h : Stop hopAt data c o) :
    Stop hopAt' data (c.setRoom room') o := by
  cases h with
  | nil => exact .nil
  | close h => exact .close h
  | boundary h => exact .boundary h
  | idle hc hb h => exact .idle hc hb h
  | scan h hd ho ht hl => exact .scan h hd ho ht ((ha.scan _ _ rfl h hd ho ht).trans hl)
  | failed h hd ho hi => exact .failed h hd ho ((ha.item _ _ rfl hd ho).trans hi)
  | ended h hd ho hi => exact .ended h hd ho ((ha.item _ _ rfl hd ho).trans hi)

/-- Machines that agree at a configuration, and end in the same way behind its next item, end in the
same way from there. -/
theorem outcome_of_agree {c : Config} {room' : Nat} (ha : Agree hopAt hopAt' data c room')
    (hnext : ∀ c', Step hopAt data c c' →
      (c'.setRoom room').outcome hopAt' data = c'.outcome hopAt data) :
    (c.setRoom room').outcome hopAt' data = c.outcome hopAt data := by
  rcases c.step_or_stop hopAt data with ⟨c', h⟩ | ⟨o, h⟩
  · rw [h.outcome_eq, (h.of_agree ha).outcome_eq]
    exact hnext c' h
  · rw [h.outcome_eq, (h.of_agree ha).outcome_eq]

/-! ### Positions in the data -/

/-- The inner runs of a block go forwards if all runs from shorter places do. -/
theorem bodyAt_forward {room : Nat} {b : UInt8} {rest : Bytes}
    (h : ∀ c : Config, c.place.length < (b :: rest).length → c.pos ≤ data.size →
      (c.outcome hopAt data).Between c.pos data.size) :
    Forward data.size (bodyAt hopAt data room b rest) := by
  intro e he
  cases room with
  | zero => exact ⟨Nat.le_refl e, Nat.le_of_lt he⟩
  | succ inner => exact h ⟨inner, true, rest, e, none⟩ (Nat.lt_succ_self _) (Nat.le_of_lt he)

/-- A block never goes backwards in the data, and stays in it. -/
theorem outcome_between (c : Config) (hd : c.pos ≤ data.size) :
    (c.outcome hopAt data).Between c.pos data.size := by
  induction c using induction with
  | h c ih =>
    rcases c.step_or_stop hopAt data with ⟨c', h⟩ | ⟨o, h⟩
    · rw [h.outcome_eq]
      have hlt := h.length_lt
      cases h with
      | boundary => exact ih _ hlt hd
      | plus => exact ih _ hlt hd
      | scanNothing => exact ih _ hlt hd
      | scan _ _ _ _ hl =>
        obtain ⟨hle, he⟩ := locate_between hl
        exact (ih _ hlt (Nat.le_of_lt he)).of_le hle
      | @item room _ b rest d _ qs e _ hlive _ hi =>
        have hitem : (item data (bodyAt hopAt data room b rest) b rest d).Between d data.size :=
          item_between (bodyAt_forward ih) hlive
        rw [hi] at hitem
        exact (ih _ hlt hitem.2).of_le hitem.1
    · rw [h.outcome_eq]
      cases h with
      | nil => exact ⟨Nat.le_refl _, hd⟩
      | close => exact ⟨Nat.le_refl _, hd⟩
      | boundary => exact ⟨Nat.le_refl _, hd⟩
      | idle => exact ⟨Nat.le_refl _, hd⟩
      | scan => exact ⟨Nat.le_refl _, hd⟩
      | failed _ hlive _ hi => exact hi ▸ item_between (bodyAt_forward ih) hlive
      | ended _ hlive _ hi => exact hi ▸ item_between (bodyAt_forward ih) hlive

end Config

/-- A block never goes backwards in the data, and stays in it. -/
theorem block_between {room : Nat} {start : Bool} {ps : Bytes} {d : Nat} {ops : Option Nat}
    (hd : d ≤ data.size) : (block hopAt data room start ps d ops).Between d data.size :=
  Config.outcome_between ⟨room, start, ps, d, ops⟩ hd

theorem forward_bodyAt (room : Nat) (b : UInt8) (rest : Bytes) :
    Forward data.size (bodyAt hopAt data room b rest) :=
  Config.bodyAt_forward fun c _ hd => c.outcome_between hd

end LinearPattern
