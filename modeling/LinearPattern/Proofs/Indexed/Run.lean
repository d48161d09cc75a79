import LinearPattern.Proofs.Item
import LinearPattern.Proofs.Indexed.ByteSet
import LinearPattern.Proofs.Indexed.Hop

/-!
# A run, found by position

The matcher with positions for places: a run holds one position of the pattern and one of the data
(`Outcome`), and asks for the bytes there.  It asks for a byte of the pattern only in front of its
end and for a byte of the data only while there is data left, so it always comes to an outcome, and
to the one that `block` comes to (`block_eq`).

* `element`, `repeated`, `item`: elements, with the position behind them found first;
* `locate`: scans;
* `block`: the items of a block.
-/

namespace LinearPattern.Indexed

/-- How a run ends: at a position of the pattern and one of the data. -/
inductive Outcome
  | reached (p d : Nat)
  | failed (p d : Nat)
  | ended (p d : Nat)
  deriving DecidableEq

/-- An outcome with the position of its place in a pattern. -/
def positions (pattern : Bytes) : LinearPattern.Outcome → Outcome
  | .reached ps d => .reached (pattern.length - ps.length) d
  | .failed ps d => .failed (pattern.length - ps.length) d
  | .ended ps d => .ended (pattern.length - ps.length) d

/-! ### Elements -/

/-- Whether an element of one data byte, the operator `op` of the byte `b` at `p`, accepts the data
byte `c`. -/
def accepts (pattern : Bytes) (p : Nat) (op : Op) (b c : UInt8) : Except OutOfRange Bool :=
  match op with
  | .any => return true
  | .nonBlank => return !Byte.isBlank c
  | .blank => return Byte.isBlank c
  | .newline => return Byte.isNewline c
  | .letter => return Byte.isLetter c
  | .digit => return Byte.isDigit c
  | .escape => return c == pattern[p + 1]?.getD Byte.escape
  | .set => contains pattern (p + 1) c
  | _ => return c == b

/-- The element between `p` and `stop`, tried once at position `d`. -/
def element (pattern : Bytes) (data : Array UInt8) (body : Nat → Except OutOfRange Outcome)
    (p stop d : Nat) : Except OutOfRange Outcome := do
  let c ← byteAt data.toList d
  let b ← byteAt pattern p
  match Op.ofByte b with
  | .group =>
    match ← body d with
    | .reached _ e => return .reached stop e
    | .failed q e => return .failed q e
    | .ended q e => return .ended q e
  | .option =>
    match ← body d with
    | .reached _ e => return .reached stop e
    | .failed _ _ => return .reached stop d
    | .ended q e => return .ended q e
  | op => if ← accepts pattern p op b c then return .reached stop (d + 1) else return .failed p d

/-- Repeats an element until it fails, stands still or has no data left, and leaves it with
`leave`. -/
def repeated (once leave : Nat → Except OutOfRange Outcome) (size d : Nat) :
    Except OutOfRange Outcome :=
  if d < size then do
    match ← once d with
    | .reached _ e => if d < e then repeated once leave size e else leave d
    | .failed _ _ => leave d
    | .ended q e => return .ended q e
  else leave d
termination_by size - d

/-- The element at `p` and the `+` behind it. -/
def item (pattern : Bytes) (data : Array UInt8) (body : Nat → Except OutOfRange Outcome)
    (p d : Nat) : Except OutOfRange Outcome := do
  let stop ← elementEnd pattern p
  match ← element pattern data body p stop d with
  | .reached _ e =>
    if pattern[stop]? = some Byte.plus then
      repeated (element pattern data body p stop)
        (fun f => do return .reached (← runEnd (· == Byte.plus) pattern stop) f) data.size e
    else return .reached stop e
  | .failed q e => return .failed q e
  | .ended q e => return .ended q e

section

variable {pattern rest : Bytes} {data : Array UInt8} {b : UInt8} {p d : Nat}
  {body : Nat → Except OutOfRange Outcome} {body' : Nat → LinearPattern.Outcome}

theorem accepts_eq (h : pattern.drop p = b :: rest) (op : Op) (c : UInt8) :
    accepts pattern p op b c = .ok (LinearPattern.accepts op b rest c) := by
  have hnext := drop_succ_of_drop h
  cases op with
  | escape =>
    rw [accepts, LinearPattern.accepts, ← List.head?_drop, hnext, List.headD_eq_head?_getD]
    rfl
  | set => rw [accepts, LinearPattern.accepts, contains_eq, hnext]
  | _ => rfl

theorem element_eq (h : pattern.drop p = b :: rest) (hd : d < data.size)
    (hbody : ∀ e, body e = .ok (positions pattern (body' e))) :
    element pattern data body p (pattern.length - (afterElement b rest).length) d =
      .ok (positions pattern (LinearPattern.element data body' b rest d)) := by
  rw [element, byteAt_toList hd, ok_bind, byteAt_of_drop h, ok_bind]
  split
  · next hop =>
    rw [element_group hop, hbody d, ok_bind]
    cases body' d <;> rfl
  · next hop =>
    rw [element_option hop, hbody d, ok_bind]
    cases body' d <;> rfl
  · next hg ho =>
    rw [element_of_single hg ho, accepts_eq h, ok_bind, Array.getElem?_eq_getElem hd]
    simp only
    split
    · rfl
    · rw [positions, position_of_drop h]
      rfl

theorem repeated_eq {once leave : Nat → Except OutOfRange Outcome}
    {once' : Nat → LinearPattern.Outcome} {after : Bytes} {size : Nat}
    (honce : ∀ e, e < size → once e = .ok (positions pattern (once' e)))
    (hleave : ∀ e, leave e = .ok (.reached (pattern.length - after.length) e)) (d : Nat) :
    repeated once leave size d =
      .ok (positions pattern (LinearPattern.repeated once' after size d)) := by
  fun_induction LinearPattern.repeated once' after size d with
  | case1 d hd ps e ho he ih =>
    rw [repeated, if_pos hd, honce d hd, ok_bind, ho]
    exact (if_pos he).trans ih
  | case2 d hd ps e ho he =>
    rw [repeated, if_pos hd, honce d hd, ok_bind, ho]
    exact (if_neg he).trans (hleave d)
  | case3 d hd ps e ho =>
    rw [repeated, if_pos hd, honce d hd, ok_bind, ho]
    exact hleave d
  | case4 d hd ps e ho =>
    rw [repeated, if_pos hd, honce d hd, ok_bind, ho]
    rfl
  | case5 d hd =>
    rw [repeated, if_neg hd]
    exact hleave d

theorem item_eq (h : pattern.drop p = b :: rest) (hd : d < data.size)
    (hbody : ∀ e, body e = .ok (positions pattern (body' e))) :
    item pattern data body p d =
      .ok (positions pattern (LinearPattern.item data body' b rest d)) := by
  have hstop := drop_of_suffix_rest h (afterElement_suffix b rest)
  rw [item, elementEnd_eq, LinearPattern.elementEnd, h]
  simp only
  rw [ok_bind, element_eq h hd hbody, ok_bind, LinearPattern.item]
  cases helement : LinearPattern.element data body' b rest d with
  | failed => rfl
  | ended => rfl
  | reached ps e =>
    obtain rfl := element_reached helement
    simp only [positions]
    rw [← List.head?_drop, hstop]
    split
    · refine repeated_eq (fun f hf => element_eq h hf hbody) (fun f => ?_) e
      rw [runEnd_eq _ (Nat.sub_le _ _), hstop]
      rfl
    · rfl

end

/-- A repetition that goes on has been left. -/
theorem repeated_reached {once leave : Nat → Except OutOfRange Outcome} {size d q e : Nat}
    (h : repeated once leave size d = .ok (.reached q e)) : ∃ f, leave f = .ok (.reached q e) := by
  rw [repeated] at h
  split at h
  · obtain ⟨o, -, h⟩ := bind_eq_ok.mp h
    cases o with
    | reached p f =>
      simp only at h
      split at h
      · exact repeated_reached h
      · exact ⟨d, h⟩
    | failed => exact ⟨d, h⟩
    | ended => cases h
  · exact ⟨d, h⟩
termination_by size - d

/-- An item that is passed leaves its first byte behind. -/
theorem lt_item {pattern : Bytes} {data : Array UInt8} {body : Nat → Except OutOfRange Outcome}
    {p d q e : Nat} (h : item pattern data body p d = .ok (.reached q e)) : p < q := by
  obtain ⟨stop, hstop, h⟩ := bind_eq_ok.mp h
  have hlt := lt_elementEnd hstop
  obtain ⟨o, -, h⟩ := bind_eq_ok.mp h
  cases o with
  | failed => cases h
  | ended => cases h
  | reached r f =>
    simp only at h
    split at h
    · obtain ⟨g, hleave⟩ := repeated_reached h
      obtain ⟨r, hrun, hr⟩ := bind_eq_ok.mp hleave
      cases hr
      exact Nat.lt_of_lt_of_le hlt (le_runEnd hrun)
    · cases h
      exact hlt

/-! ### Scans -/

/-- The next candidate of a scan. -/
def candidate (hop : Option Hop) (data : Array UInt8) (d : Nat) : Except OutOfRange Nat :=
  match hop with
  | none => return d
  | some hop => next hop data d

theorem candidate_eq (hop : Option Hop) (data : Array UInt8) (d : Nat) :
    candidate hop data d = .ok (LinearPattern.candidate hop data d) := by
  cases hop with
  | none => rfl
  | some hop => exact next_eq hop data d

/-- The first candidate from `d` on at which `probe` does not fail. -/
def locate (hop : Option Hop) (data : Array UInt8) (probe : Nat → Except OutOfRange Outcome)
    (d : Nat) : Except OutOfRange (Option Nat) :=
  if hd : d < data.size then
    andThen (candidate hop data d) fun e he =>
      have : d ≤ e := Except.ok.inj ((candidate_eq hop data d).symm.trans he) ▸
        le_candidate hop data (Nat.le_of_lt hd)
      if e < data.size then do
        match ← probe e with
        | .failed _ _ => locate hop data probe (e + 1)
        | _ => return some e
      else return none
  else return none
termination_by data.size - d

theorem locate_eq {hop : Option Hop} {pattern : Bytes} {data : Array UInt8}
    {probe : Nat → Except OutOfRange Outcome} {probe' : Nat → LinearPattern.Outcome}
    (h : ∀ e, probe e = .ok (positions pattern (probe' e))) (d : Nat) :
    locate hop data probe d = .ok (LinearPattern.locate hop data probe' d) := by
  fun_induction LinearPattern.locate hop data probe' d with
  | case1 d hd e he hfail ih =>
    obtain ⟨ps, x, hprobe⟩ := Outcome.isFailed_iff.mp hfail
    rw [locate.eq_def, dif_pos hd, andThen_ok (candidate_eq hop data d)]
    simp only
    rw [if_pos he, h e, ok_bind, hprobe]
    exact ih
  | case2 d hd e he hfail =>
    rw [locate.eq_def, dif_pos hd, andThen_ok (candidate_eq hop data d)]
    simp only
    rw [if_pos he, h e, ok_bind]
    cases hprobe : probe' e with
    | failed => exact absurd (hprobe ▸ rfl) hfail
    | reached => rfl
    | ended => rfl
  | case3 d hd e he =>
    rw [locate.eq_def, dif_pos hd, andThen_ok (candidate_eq hop data d)]
    simp only
    rw [if_neg he]
    rfl
  | case4 d hd =>
    rw [locate.eq_def, dif_neg hd]
    rfl

/-! ### Blocks -/

/-- Runs an inner block that opens at `p`, if there is room for it. -/
def enter (room p : Nat) (inside : Nat → Nat → Except OutOfRange Outcome) (d : Nat) :
    Except OutOfRange Outcome :=
  match room with
  | 0 => return .failed p d
  | inner + 1 => inside inner d

/-- No item follows at `p` in this block. -/
def atBlockEnd (pattern : Bytes) (p : Nat) : Bool :=
  match pattern[p]? with
  | none => true
  | some b => Byte.isClose b

/-- Runs the items of a block from the positions `p` and `d` on. -/
def block (pattern : Bytes) (data : Array UInt8) (room : Nat) (start : Bool) (p d : Nat)
    (ops : Option Nat) : Except OutOfRange Outcome :=
  if p < pattern.length then do
    let b ← byteAt pattern p
    match Op.ofByte b with
    | .close => return .reached (p + 1) d
    | .boundary =>
      if start then block pattern data room false (p + 1) d ops else return .ended (p + 1) d
    | op =>
      if data.size ≤ d ∨ ops = some 0 then return .reached p d
      else
        match op with
        | .plus => block pattern data room false (p + 1) d (spend ops)
        | .scan =>
          andThen (runEnd (· == Byte.scan) pattern (p + 1)) fun target htarget =>
            have : p < target := le_runEnd htarget
            if atBlockEnd pattern target then block pattern data room false target d (spend ops)
            else do
              let hop ← hopAt pattern target
              match ← locate hop data
                  (fun e => block pattern data room true target e (some 1)) d with
              | none => return .failed p d
              | some e => block pattern data room false target e (spend ops)
        | _ =>
          let body := enter room p fun inner e => block pattern data inner true (p + 1) e none
          andThen (item pattern data body p d) fun o ho =>
            match o, ho with
            | .reached q e, ho =>
              have : p < q := lt_item ho
              block pattern data room false q e (spend ops)
            | .failed q e, _ => return .failed q e
            | .ended q e, _ => return .ended q e
  else return .reached p d
termination_by pattern.length - p

section

variable {pattern rest : Bytes} {data : Array UInt8} {b : UInt8} {p : Nat}

theorem atBlockEnd_eq (pattern : Bytes) (p : Nat) :
    atBlockEnd pattern p = LinearPattern.atBlockEnd (pattern.drop p) := by
  rw [atBlockEnd, ← List.head?_drop]
  cases pattern.drop p with
  | nil => rfl
  | cons b rest => rfl

theorem enter_eq {inside : Nat → Nat → Except OutOfRange Outcome}
    {inside' : Nat → Nat → LinearPattern.Outcome} (h : pattern.drop p = b :: rest)
    (hinside : ∀ inner e, inside inner e = .ok (positions pattern (inside' inner e)))
    (room e : Nat) :
    enter room p inside e =
      .ok (positions pattern (LinearPattern.enter room (b :: rest) inside' e)) := by
  cases room with
  | zero =>
    rw [enter, LinearPattern.enter, positions, position_of_drop h]
    rfl
  | succ inner => exact hinside inner e

/-- At this position of a pattern every run by positions comes to what the run of the place comes
to. -/
def AgreesAt (pattern : Bytes) (data : Array UInt8) (p : Nat) : Prop :=
  ∀ room start d ops,
    block pattern data room start p d ops =
      .ok (positions pattern
        (LinearPattern.block Hop.of? data room start (pattern.drop p) d ops))

theorem agreesAt_close (h : pattern.drop p = b :: rest) (hop : Op.ofByte b = .close) :
    AgreesAt pattern data p := by
  intro room start d ops
  rw [h, block_close hop, block.eq_def, read_of_drop h, positions, position_rest h]
  simp only [hop, pure_eq_ok]

theorem agreesAt_boundary (h : pattern.drop p = b :: rest) (hop : Op.ofByte b = .boundary)
    (ih : AgreesAt pattern data (p + 1)) : AgreesAt pattern data p := by
  intro room start d ops
  rw [h, block.eq_def, read_of_drop h]
  simp only [hop]
  cases start with
  | true => rw [block_boundary_start hop, if_pos rfl, ih, drop_succ_of_drop h]
  | false =>
    rw [block_boundary hop, if_neg Bool.false_ne_true, positions, position_rest h]
    rfl

section

variable {room d : Nat} {start : Bool} {ops : Option Nat}

/-- The run stops in front of an item that there is no data or no budget for. -/
theorem block_eq_of_stop (h : pattern.drop p = b :: rest) (hc : Op.ofByte b ≠ .close)
    (hb : Op.ofByte b ≠ .boundary) (hstop : data.size ≤ d ∨ ops = some 0) :
    block pattern data room start p d ops =
      .ok (positions pattern
        (LinearPattern.block Hop.of? data room start (pattern.drop p) d ops)) := by
  rw [h, block_stop hc hb hstop, block.eq_def, read_of_drop h, positions, position_of_drop h]
  split
  · next hop => exact absurd hop hc
  · next hop => exact absurd hop hb
  · exact if_pos hstop

end

theorem agreesAt_plus (h : pattern.drop p = b :: rest) (hop : Op.ofByte b = .plus)
    (ih : AgreesAt pattern data (p + 1)) : AgreesAt pattern data p := by
  intro room start d ops
  by_cases hstop : data.size ≤ d ∨ ops = some 0
  · exact block_eq_of_stop h (hop ▸ nofun) (hop ▸ nofun) hstop
  · obtain ⟨hd, ho⟩ := not_or.mp hstop
    rw [h, block_plus hop (Nat.lt_of_not_le hd) ho, block.eq_def, read_of_drop h]
    simp only [hop, if_neg hstop]
    rw [ih, drop_succ_of_drop h]

theorem agreesAt_scan (h : pattern.drop p = b :: rest) (hop : Op.ofByte b = .scan)
    (ih : ∀ q, p < q → q ≤ pattern.length → AgreesAt pattern data q) :
    AgreesAt pattern data p := by
  intro room start d ops
  by_cases hstop : data.size ≤ d ∨ ops = some 0
  · exact block_eq_of_stop h (hop ▸ nofun) (hop ▸ nofun) hstop
  · obtain ⟨hd, ho⟩ := not_or.mp hstop
    have htarget := drop_of_suffix_rest h (afterRun_suffix Byte.scan rest)
    have hrun : runEnd (· == Byte.scan) pattern (p + 1) =
        .ok (pattern.length - (afterRun Byte.scan rest).length) := by
      rw [runEnd_eq _ (lt_of_drop h), drop_succ_of_drop h]
      rfl
    have hthere := ih _ (le_runEnd hrun) (Nat.sub_le _ _)
    rw [h, block_scan hop (Nat.lt_of_not_le hd) ho, block.eq_def, read_of_drop h]
    simp only [hop, if_neg hstop]
    rw [andThen_ok hrun, atBlockEnd_eq, htarget]
    split
    · rw [hthere, htarget]
    · have hprobe := fun e => htarget ▸ hthere room true e (some 1)
      rw [hopAt_eq, ok_bind, htarget, locate_eq hprobe, ok_bind]
      cases LinearPattern.locate (Hop.of? (afterRun Byte.scan rest)) data
          (fun e => LinearPattern.block Hop.of? data room true (afterRun Byte.scan rest) e
            (some 1)) d with
      | none =>
        simp only [positions, position_of_drop h]
        rfl
      | some e =>
        simp only
        rw [hthere, htarget]

theorem agreesAt_item (h : pattern.drop p = b :: rest) (hc : Op.ofByte b ≠ .close)
    (hb : Op.ofByte b ≠ .boundary) (hp : Op.ofByte b ≠ .plus) (hs : Op.ofByte b ≠ .scan)
    (ih : ∀ q, p < q → q ≤ pattern.length → AgreesAt pattern data q) :
    AgreesAt pattern data p := by
  intro room start d ops
  by_cases hstop : data.size ≤ d ∨ ops = some 0
  · exact block_eq_of_stop h hc hb hstop
  · obtain ⟨hd, ho⟩ := not_or.mp hstop
    -- the inner block starts behind the byte that opens it, and the run goes on behind the item
    have hnext := drop_succ_of_drop h
    have hinside := ih (p + 1) (Nat.lt_succ_self p) (lt_of_drop h)
    have hbody := enter_eq h (fun inner e => hnext ▸ hinside inner true e none) room
    have hitem := item_eq h (Nat.lt_of_not_le hd) hbody
    rw [h, block_item hc hb hp hs (Nat.lt_of_not_le hd) ho, block.eq_def, read_of_drop h]
    split
    · next hop => exact absurd hop hc
    · next hop => exact absurd hop hb
    · rw [if_neg hstop]
      split
      · next hop => exact absurd hop hp
      · next hop => exact absurd hop hs
      · simp only
        cases hi : LinearPattern.item data (LinearPattern.enter room (b :: rest) fun inner e =>
            LinearPattern.block Hop.of? data inner true rest e none) b rest d with
        | reached ps e =>
          obtain rfl := item_reached hi
          rw [hi, positions] at hitem
          rw [andThen_ok hitem]
          simp only
          rw [ih _ (lt_item hitem) (Nat.sub_le _ _),
            drop_of_suffix_rest h (afterItem_suffix b rest)]
        | failed qs e =>
          rw [hi, positions] at hitem
          rw [andThen_ok hitem]
          rfl
        | ended qs e =>
          rw [hi, positions] at hitem
          rw [andThen_ok hitem]
          rfl

end

/-- A run by positions asks for nothing that is out of range, and comes to what the run of the
place comes to. -/
theorem block_eq (pattern : Bytes) (data : Array UInt8) {p : Nat} (hp : p ≤ pattern.length) :
    AgreesAt pattern data p := by
  have ih : ∀ q, p < q → q ≤ pattern.length → AgreesAt pattern data q :=
    fun q hlt hq => block_eq pattern data hq
  cases hdrop : pattern.drop p with
  | nil =>
    intro room start d ops
    have hend := List.drop_eq_nil_iff.mp hdrop
    rw [block.eq_def, read_of_drop_nil hdrop, hdrop, block_nil, positions, Nat.le_antisymm hp hend]
    rfl
  | cons b rest =>
    have hnext := ih (p + 1) (Nat.lt_succ_self p) (lt_of_drop hdrop)
    cases hop : Op.ofByte b with
    | close => exact agreesAt_close hdrop hop
    | boundary => exact agreesAt_boundary hdrop hop hnext
    | plus => exact agreesAt_plus hdrop hop hnext
    | scan => exact agreesAt_scan hdrop hop ih
    | _ =>
      exact agreesAt_item hdrop (by simp [hop]) (by simp [hop]) (by simp [hop]) (by simp [hop]) ih
termination_by pattern.length - p

end LinearPattern.Indexed
