import LinearPattern.Proofs.Nesting

/-!
# How deep a match recurses

A block calls itself for the body of a group or of an option, and for the probe of a scan.  A body
has less room than the block around it, but a probe has the same; it is bounded by its budget of one
item instead.

* `framesOfBlock`, `framesOfRun`: the most calls that are active at the same time;
* `nestedProbes`: how many probes, one inside the other, one item starts;
* `maxProbes`: how many the probe of any scan of a pattern starts;
* `framesOfRun_le`: the outermost block, and every block that may be entered, costs two frames, and
  one more for each of those probes.

The item that a scan probes is no scan, so that the probe starts no other.  But a probe passes over
a boundary at its start without spending its budget, and there may be a scan behind the boundary: the
recursion grows with the length of the pattern then (`framesOfRun_probeChain`), also where no block
may be entered at all.
-/

namespace LinearPattern

/-! ### Counting calls -/

/-- The positions at which a repeated element is tried. -/
def triesOfRepeated (once : Nat → Outcome) (size d : Nat) : List Nat :=
  if d < size then
    match once d with
    | .reached _ e => if d < e then d :: triesOfRepeated once size e else [d]
    | _ => [d]
  else []
termination_by size - d

/-- The positions at which the element of an item is tried. -/
def triesOfItem (data : Array UInt8) (body : Nat → Outcome) (b : UInt8) (rest : Bytes) (d : Nat) :
    List Nat :=
  match element data body b rest d with
  | .reached ps e =>
    if ps.head? = some Byte.plus then
      d :: triesOfRepeated (element data body b rest) data.size e
    else [d]
  | _ => [d]

/-- The positions at which a scan tries its probe. -/
def triesOfScan (hop : Option Hop) (data : Array UInt8) (probe : Nat → Outcome) (d : Nat) :
    List Nat :=
  if d < data.size then
    let e := candidate hop data d
    if e < data.size then
      if (probe e).isFailed then e :: triesOfScan hop data probe (e + 1) else [e]
    else []
  else []
termination_by data.size - d
decreasing_by
  have := le_candidate hop data (d := d) (by omega)
  omega

/-- The most frames of the runs that are started at these positions, one after the other. -/
def mostFrames (frames : Nat → Nat) (tries : List Nat) : Nat :=
  tries.foldr (fun d most => max (frames d) most) 0

/-- The most calls of a block that are active at the same time in the run of a block, which is one
of them. -/
def framesOfBlock (hopAt : Bytes → Option Hop) (data : Array UInt8) (room : Nat) (start : Bool)
    (ps : Bytes) (d : Nat) (ops : Option Nat) : Nat :=
  match ps with
  | [] => 1
  | b :: rest =>
    match Op.ofByte b with
    | .close => 1
    | .boundary => if start then framesOfBlock hopAt data room false rest d ops else 1
    | op =>
      if data.size ≤ d ∨ ops = some 0 then 1
      else
        match op with
        | .plus => framesOfBlock hopAt data room false rest d (spend ops)
        | .scan =>
          let target := afterRun Byte.scan rest
          if atBlockEnd target then framesOfBlock hopAt data room false target d (spend ops)
          else
            let probe := probeAt hopAt data room target
            let inner :=
              mostFrames (fun e => framesOfBlock hopAt data room true target e (some 1))
                (triesOfScan (hopAt target) data probe d)
            let later :=
              match locate (hopAt target) data probe d with
              | none => 1
              | some e => framesOfBlock hopAt data room false target e (spend ops)
            max (inner + 1) later
        | op =>
          let body := bodyAt hopAt data room b rest
          let inner :=
            if op = .group ∨ op = .option then
              match room with
              | 0 => 0
              | inside + 1 =>
                mostFrames (fun e => framesOfBlock hopAt data inside true rest e none)
                  (triesOfItem data body b rest d)
            else 0
          let later :=
            match item data body b rest d with
            | .reached _ e => framesOfBlock hopAt data room false (afterItem b rest) e (spend ops)
            | _ => 1
          max (inner + 1) later
termination_by ps.length
decreasing_by
  all_goals
    have := (afterRun_suffix Byte.scan rest).length_le
    have := (afterItem_suffix b rest).length_le
    simp only [List.length_cons]
    omega

/-- The most calls of a block that are active at the same time in a match of a pattern from position
`p` on against the data from position `d` on. -/
def framesOfRun (bounds : Bounds) (pattern : Bytes) (p : Nat) (data : Array UInt8) (d : Nat) :
    Nat :=
  let ps := pattern.drop p
  let d := min d data.size
  if d = data.size ∧ bounds.maxOps ≠ some 0 ∧ needsData (afterBoundary ps) then 0
  else framesOfBlock Hop.of? data bounds.nesting true ps d bounds.maxOps

section

variable {data : Array UInt8} {d e : Nat}

theorem mostFrames_le {frames : Nat → Nat} {tries : List Nat} {n : Nat}
    (h : ∀ e ∈ tries, frames e ≤ n) : mostFrames frames tries ≤ n := by
  induction tries with
  | nil => exact Nat.zero_le n
  | cons d tries ih =>
    exact Nat.max_le.mpr ⟨h d List.mem_cons_self, ih fun e he => h e (List.mem_cons_of_mem d he)⟩

theorem triesOfRepeated_between {once : Nat → Outcome} {size : Nat}
    (h : e ∈ triesOfRepeated once size d) : d ≤ e ∧ e < size := by
  fun_induction triesOfRepeated once size d with
  | case1 d hd ps x _ hlt ih =>
    rcases List.mem_cons.mp h with rfl | h
    · exact ⟨Nat.le_refl e, hd⟩
    · exact ⟨Nat.le_trans (Nat.le_of_lt hlt) (ih h).1, (ih h).2⟩
  | case2 d hd =>
    obtain rfl := List.mem_singleton.mp h
    exact ⟨Nat.le_refl e, hd⟩
  | case3 d hd =>
    obtain rfl := List.mem_singleton.mp h
    exact ⟨Nat.le_refl e, hd⟩
  | case4 => simp at h

/-- An element is tried in the data, from the position of its item on. -/
theorem triesOfItem_between {body : Nat → Outcome} {b : UInt8} {rest : Bytes}
    (hf : Forward data.size body) (hd : d < data.size) (h : e ∈ triesOfItem data body b rest d) :
    d ≤ e ∧ e < data.size := by
  have helement : (element data body b rest d).Between d data.size := element_forward hf d hd
  have hfirst : e = d → d ≤ e ∧ e < data.size := by
    rintro rfl
    exact ⟨Nat.le_refl e, hd⟩
  unfold triesOfItem at h
  split at h
  · next ps x hx =>
    split at h
    · rcases List.mem_cons.mp h with h | h
      · exact hfirst h
      · rw [hx] at helement
        have hbetween := triesOfRepeated_between h
        exact ⟨Nat.le_trans helement.1 hbetween.1, hbetween.2⟩
    · exact hfirst (List.mem_singleton.mp h)
  · exact hfirst (List.mem_singleton.mp h)

/-- A scan tries its probe in the data, from its own position on. -/
theorem triesOfScan_between {hop : Option Hop} {probe : Nat → Outcome}
    (h : e ∈ triesOfScan hop data probe d) : d ≤ e ∧ e < data.size := by
  fun_induction triesOfScan hop data probe d with
  | case1 d hd x hx _ ih =>
    have hle := le_candidate hop data (Nat.le_of_lt hd)
    rcases List.mem_cons.mp h with rfl | h
    · exact ⟨hle, hx⟩
    · exact ⟨Nat.le_trans hle (Nat.le_of_succ_le (ih h).1), (ih h).2⟩
  | case2 d hd x hx =>
    obtain rfl := List.mem_singleton.mp h
    exact ⟨le_candidate hop data (Nat.le_of_lt hd), hx⟩
  | case3 => simp at h
  | case4 => simp at h

end

namespace Config

variable {hopAt : Bytes → Option Hop} {data : Array UInt8}

/-- The most calls of a block that are active at the same time from here on. -/
def frames (hopAt : Bytes → Option Hop) (data : Array UInt8) (c : Config) : Nat :=
  framesOfBlock hopAt data c.room c.start c.place c.pos c.ops

/-- A block has its own frame, those of a call on top of it, and those that it has behind its next
item. -/
theorem frames_le {c : Config} {n : Nat} (hn : 1 ≤ n)
    (hcall : ∀ c', Calls data c c' → c'.frames hopAt data + 1 ≤ n)
    (hstep : ∀ c', Step hopAt data c c' → c'.frames hopAt data ≤ n) : c.frames hopAt data ≤ n := by
  obtain ⟨room, start, place, d, ops⟩ := c
  unfold frames
  rw [framesOfBlock.eq_def]
  cases place with
  | nil => exact hn
  | cons b rest =>
    simp only
    split
    · exact hn
    · next hb =>
      split
      · next hstart =>
        subst hstart
        exact hstep _ (.boundary hb)
      · exact hn
    · next hc hb =>
      split
      · exact hn
      · next h =>
        obtain ⟨hd, ho⟩ := not_or.mp h
        rw [Nat.not_le] at hd
        split
        · next hp => exact hstep _ (.plus hp hd ho)
        · next hs =>
          split
          · next ht => exact hstep _ (.scanNothing hs hd ho ht)
          · next ht =>
            refine Nat.max_le.mpr ⟨?_, ?_⟩
            · refine Nat.add_le_of_le_sub hn (mostFrames_le fun e he => Nat.le_sub_of_add_le ?_)
              obtain ⟨hle, hlt⟩ := triesOfScan_between he
              exact hcall _ (.probe hs hd ho ht hle hlt)
            · split
              · exact hn
              · next hl => exact hstep _ (.scan hs hd ho ht hl)
        · next hp hs =>
          have he := Op.startsElement_eq_true.mpr ⟨hc, hb, hp, hs⟩
          refine Nat.max_le.mpr ⟨?_, ?_⟩
          · split
            · next hblock =>
              cases room with
              | zero => exact hn
              | succ inside =>
                refine Nat.add_le_of_le_sub hn (mostFrames_le fun e he => Nat.le_sub_of_add_le ?_)
                obtain ⟨hle, hlt⟩ := triesOfItem_between (forward_bodyAt _ b rest) hd he
                exact hcall _ (.body hblock hd ho hle hlt)
            · exact hn
          · split
            · next hi => exact hstep _ (.item he hd ho hi)
            · exact hn

end Config

/-! ### Probes in probes -/

/-- How many probes, one inside the other, a block of one item starts from the place `ps` on.  A
boundary is no item where it is passed over. -/
def nestedProbes (start : Bool) (ps : Bytes) : Nat :=
  match ps with
  | [] => 0
  | b :: rest =>
    match Op.ofByte b with
    | .boundary => if start then nestedProbes false rest else 0
    | .scan =>
      if atBlockEnd (afterRun Byte.scan rest) then 0
      else nestedProbes true (afterRun Byte.scan rest) + 1
    | _ => 0
termination_by ps.length
decreasing_by
  all_goals
    have := (afterRun_suffix Byte.scan rest).length_le
    simp only [List.length_cons]
    omega

/-- How many probes, one inside the other, the probe of a scan of this pattern starts. -/
def maxProbes (ps : Bytes) : Nat :=
  match ps with
  | [] => 0
  | b :: rest =>
    match Op.ofByte b with
    | .escape => maxProbes (rest.drop 1)
    | .set => maxProbes (afterSet rest)
    | .scan => max (nestedProbes true (afterRun Byte.scan rest)) (maxProbes rest)
    | _ => maxProbes rest
termination_by ps.length
decreasing_by
  all_goals
    have := (afterSet_suffix rest).length_le
    simp only [List.length_cons, List.length_drop]
    omega

section

variable {b : UInt8} {rest ps : Bytes} {start : Bool}

theorem nestedProbes_boundary (h : Op.ofByte b = .boundary) :
    nestedProbes true (b :: rest) = nestedProbes false rest := by
  rw [nestedProbes.eq_def]
  simp only [h, if_true]

theorem nestedProbes_scan (h : Op.ofByte b = .scan) (ht : ¬atBlockEnd (afterRun Byte.scan rest)) :
    nestedProbes start (b :: rest) = nestedProbes true (afterRun Byte.scan rest) + 1 := by
  rw [nestedProbes.eq_def]
  simp only [h, ht, Bool.false_eq_true, if_false]

theorem maxProbes_escape (h : Op.ofByte b = .escape) :
    maxProbes (b :: rest) = maxProbes (rest.drop 1) := by
  rw [maxProbes.eq_def]
  simp only [h]

theorem maxProbes_set (h : Op.ofByte b = .set) :
    maxProbes (b :: rest) = maxProbes (afterSet rest) := by
  rw [maxProbes.eq_def]
  simp only [h]

theorem nestedProbes_le_maxProbes (h : Op.ofByte b = .scan) :
    nestedProbes true (afterRun Byte.scan rest) ≤ maxProbes (b :: rest) := by
  rw [maxProbes.eq_def]
  simp only [h]
  exact Nat.le_max_left _ _

/-- Behind an operator of one byte there are no more scans than from it on. -/
theorem maxProbes_le_cons (he : Op.ofByte b ≠ .escape) (hs : Op.ofByte b ≠ .set) :
    maxProbes rest ≤ maxProbes (b :: rest) := by
  rw [maxProbes.eq_def (b :: rest)]
  simp only
  split
  · next h => exact absurd h he
  · next h => exact absurd h hs
  · exact Nat.le_max_right _ _
  · exact Nat.le_refl _

theorem maxProbes_afterBlock_le (depth : Nat) (ps : Bytes) :
    maxProbes (afterBlock depth ps) ≤ maxProbes ps := by
  fun_induction afterBlock depth ps with
  | case1 => exact Nat.le_refl _
  | case2 depth b rest h ih => rwa [maxProbes_escape h]
  | case3 depth b rest h ih => rwa [maxProbes_set h]
  | case4 depth b rest h ih =>
    exact Nat.le_trans ih (maxProbes_le_cons (by simp [h]) (by simp [h]))
  | case5 depth b rest h ih =>
    exact Nat.le_trans ih (maxProbes_le_cons (by simp [h]) (by simp [h]))
  | case6 b rest h => exact maxProbes_le_cons (by simp [h]) (by simp [h])
  | case7 b rest h depth ih =>
    exact Nat.le_trans ih (maxProbes_le_cons (by simp [h]) (by simp [h]))
  | case8 depth b rest he hs _ _ _ ih => exact Nat.le_trans ih (maxProbes_le_cons he hs)

theorem maxProbes_afterElement_le : maxProbes (afterElement b rest) ≤ maxProbes (b :: rest) := by
  unfold afterElement
  split
  · next h => exact Nat.le_of_eq (maxProbes_escape h).symm
  · next h => exact Nat.le_of_eq (maxProbes_set h).symm
  · next h =>
    exact Nat.le_trans (maxProbes_afterBlock_le 0 rest)
      (maxProbes_le_cons (by simp [h]) (by simp [h]))
  · next h =>
    exact Nat.le_trans (maxProbes_afterBlock_le 0 rest)
      (maxProbes_le_cons (by simp [h]) (by simp [h]))
  · next he hs _ _ => exact maxProbes_le_cons he hs

theorem maxProbes_afterRun_le {x : UInt8} (he : Op.ofByte x ≠ .escape) (hs : Op.ofByte x ≠ .set) :
    maxProbes (afterRun x ps) ≤ maxProbes ps := by
  induction ps with
  | nil => exact Nat.le_refl _
  | cons b ps ih =>
    by_cases hb : b = x
    · subst hb
      rw [afterRun, List.dropWhile_cons, if_pos (by simp)]
      exact Nat.le_trans ih (maxProbes_le_cons he hs)
    · exact Nat.le_of_eq (congrArg maxProbes (afterRun_of_head?_ne (by simpa using hb)))

theorem maxProbes_afterItem_le : maxProbes (afterItem b rest) ≤ maxProbes (b :: rest) :=
  Nat.le_trans (maxProbes_afterRun_le (by decide) (by decide)) maxProbes_afterElement_le

theorem maxProbes_afterScans_le (h : Op.ofByte b = .scan) :
    maxProbes (afterRun Byte.scan rest) ≤ maxProbes (b :: rest) :=
  Nat.le_trans (maxProbes_afterRun_le (by decide) (by decide))
    (maxProbes_le_cons (by simp [h]) (by simp [h]))

end

namespace Config

variable {hopAt : Bytes → Option Hop} {data : Array UInt8} {c c' : Config}

theorem Step.maxProbes_le (h : Step hopAt data c c') : maxProbes c'.place ≤ maxProbes c.place := by
  cases h with
  | boundary h => exact maxProbes_le_cons (by simp [h]) (by simp [h])
  | plus h => exact maxProbes_le_cons (by simp [h]) (by simp [h])
  | scanNothing h => exact maxProbes_afterScans_le h
  | scan h => exact maxProbes_afterScans_le h
  | item h => exact maxProbes_afterItem_le

theorem Calls.maxProbes_le (h : Calls data c c') : maxProbes c'.place ≤ maxProbes c.place := by
  cases h with
  | probe h => exact maxProbes_afterScans_le h
  | body h => rcases h with h | h <;> exact maxProbes_le_cons (by simp [h]) (by simp [h])

theorem Calls.ops_ne_zero (h : Calls data c c') : c.ops ≠ some 0 := by
  cases h <;> assumption

/-- Without a budget, no item is done with. -/
theorem Step.of_zero (h : Step hopAt data c c') (hzero : c.ops = some 0) : c'.ops = some 0 := by
  cases h with
  | boundary => exact hzero
  | plus _ _ ho => exact absurd hzero ho
  | scanNothing _ _ ho => exact absurd hzero ho
  | scan _ _ ho => exact absurd hzero ho
  | item _ _ ho => exact absurd hzero ho

/-- A budget for one item is spent on it; a boundary that is passed over is none. -/
theorem Step.of_one (h : Step hopAt data c c') (hone : c.ops = some 1) :
    c'.ops = some 0 ∨
      c'.ops = some 1 ∧ nestedProbes c'.start c'.place = nestedProbes c.start c.place := by
  have hspend : spend c.ops = some 0 := by rw [hone]; rfl
  cases h with
  | boundary h => exact .inr ⟨hone, (nestedProbes_boundary h).symm⟩
  | plus => exact .inl hspend
  | scanNothing => exact .inl hspend
  | scan => exact .inl hspend
  | item => exact .inl hspend

/-! ### The bound -/

/-- The frames of a block, where the probe of a scan starts at most `k` probes: `k + 2` for the
block and for each block that may still be entered.  With a budget for one item, as a probe has it,
the block itself needs only its own frame and those of the probes that its item starts.  Without a
budget it calls nothing. -/
structure FramesWithin (hopAt : Bytes → Option Hop) (data : Array UInt8) (k : Nat) (c : Config) :
    Prop where
  any : c.frames hopAt data ≤ (k + 2) * (c.room + 1)
  one : c.ops = some 1 →
    c.frames hopAt data ≤ nestedProbes c.start c.place + 1 + (k + 2) * c.room
  zero : c.ops = some 0 → c.frames hopAt data ≤ 1

theorem framesWithin {k : Nat} (c : Config) (hk : maxProbes c.place ≤ k) :
    FramesWithin hopAt data k c := by
  induction c using Config.induction with
  | h c ih =>
    have hcall : ∀ c', Calls data c c' → FramesWithin hopAt data k c' := fun c' h =>
      ih c' h.length_lt (Nat.le_trans h.maxProbes_le hk)
    have hstep : ∀ c', Step hopAt data c c' → FramesWithin hopAt data k c' := fun c' h =>
      ih c' h.length_lt (Nat.le_trans h.maxProbes_le hk)
    constructor
    · refine frames_le (Nat.mul_pos (by omega) (by omega)) (fun c' h => ?_) fun c' h => ?_
      · have hw := hcall c' h
        cases h with
        | probe hs =>
          have hprobes := Nat.le_trans (nestedProbes_le_maxProbes hs) hk
          have hframes := hw.one rfl
          simp only [Nat.mul_succ] at hframes ⊢
          omega
        | body =>
          have hframes := hw.any
          simp only [Nat.mul_succ] at hframes ⊢
          omega
      · rw [← h.room_eq]
        exact (hstep c' h).any
    · intro hone
      refine frames_le (by omega) (fun c' h => ?_) fun c' h => ?_
      · have hw := hcall c' h
        cases h with
        | probe hs _ _ ht =>
          have hframes := hw.one rfl
          simp only [nestedProbes_scan hs ht] at hframes ⊢
          omega
        | body =>
          have hframes := hw.any
          simp only at hframes ⊢
          omega
      · have hw := hstep c' h
        rcases h.of_one hone with hzero | ⟨hone', hprobes⟩
        · exact Nat.le_trans (hw.zero hzero) (by omega)
        · rw [← hprobes, ← h.room_eq]
          exact hw.one hone'
    · intro hzero
      refine frames_le (Nat.le_refl 1) (fun c' h => absurd hzero h.ops_ne_zero) fun c' h => ?_
      exact (hstep c' h).zero (h.of_zero hzero)

end Config

/-- **The recursion of a match is bounded.**  The calls of a block that are active at the same time
are two for the outermost block and for each block that may be entered, and one more for each probe
that the probe of a scan starts inside of itself. -/
theorem framesOfRun_le (bounds : Bounds) (pattern : Bytes) (p : Nat) (data : Array UInt8)
    (d : Nat) :
    framesOfRun bounds pattern p data d ≤
      (maxProbes (pattern.drop p) + 2) * (bounds.nesting + 1) := by
  unfold framesOfRun
  simp only
  split
  · exact Nat.zero_le _
  · exact (Config.framesWithin ⟨bounds.nesting, true, pattern.drop p, _, bounds.maxOps⟩
      (Nat.le_refl _)).any

/-! ### Patterns that recurse by their length -/

/-- A scan for a digit behind `n` scans, each with a boundary in front of the next. -/
def probeChain : Nat → Bytes
  | 0 => [Byte.scan, Byte.digit]
  | n + 1 => Byte.scan :: Byte.boundary :: probeChain n

section

variable {data : Array UInt8} {probe : Nat → Outcome}

/-- A scan of one byte is done with its only probe. -/
theorem locate_of_size_one (hsize : data.size = 1) (h : (probe 0).isFailed) :
    locate none data probe 0 = none := by
  have hall : ∀ x, 0 ≤ x → x < 1 → (probe x).isFailed := fun x _ hx => by
    obtain rfl : x = 0 := by omega
    exact h
  rw [locate_noHop, hsize, firstSuccess_skip (by omega) (Nat.le_refl 1) hall,
    firstSuccess_of_le (Nat.le_refl 1)]

theorem triesOfScan_of_size_one (hsize : data.size = 1) (h : (probe 0).isFailed) :
    triesOfScan none data probe 0 = [0] := by
  rw [triesOfScan, if_pos (by omega)]
  simp only [candidate, hsize, Nat.zero_lt_one, if_true, h]
  rw [triesOfScan, if_neg (by omega)]

/-- A scan is as deep as its own frame and that of the item behind it, if that fails. -/
theorem framesOfBlock_scan_of_failed {hopAt : Bytes → Option Hop} {room : Nat} (start : Bool)
    {ps : Bytes} {ops : Option Nat} (hsize : data.size = 1) (ho : ops ≠ some 0)
    (hrun : afterRun Byte.scan ps = ps) (hend : atBlockEnd ps = false) (hhop : hopAt ps = none)
    (hfail : (block hopAt data room true ps 0 (some 1)).isFailed) :
    (block hopAt data room start (Byte.scan :: ps) 0 ops).isFailed ∧
      framesOfBlock hopAt data room start (Byte.scan :: ps) 0 ops =
        framesOfBlock hopAt data room true ps 0 (some 1) + 1 := by
  have hlocate : locate none data (probeAt hopAt data room ps) 0 = none :=
    locate_of_size_one hsize hfail
  have htries : triesOfScan none data (probeAt hopAt data room ps) 0 = [0] :=
    triesOfScan_of_size_one hsize hfail
  constructor
  · rw [block_scan_probe rfl (by omega) ho, hrun, hend, hhop, hlocate]
    rfl
  · rw [framesOfBlock.eq_def]
    have hstop : ¬(data.size ≤ 0 ∨ ops = some 0) := not_or.mpr ⟨by omega, ho⟩
    simp only [show Op.ofByte Byte.scan = .scan from rfl, hstop, if_false, hrun, hend, hhop, htries,
      hlocate, Bool.false_eq_true, mostFrames, List.foldr_cons, List.foldr_nil]
    omega

end

variable {c : UInt8}

/-- A chain fails on a byte that is no digit, with a frame for each of its scans. -/
theorem framesOfBlock_probeChain (hc : Byte.isDigit c = false) (n room : Nat) (start : Bool)
    (ops : Option Nat) (ho : ops ≠ some 0) :
    (block Hop.of? #[c] room start (probeChain n) 0 ops).isFailed ∧
      framesOfBlock Hop.of? #[c] room start (probeChain n) 0 ops = n + 2 := by
  induction n generalizing start ops with
  | zero =>
    have hitem : item #[c] (bodyAt Hop.of? #[c] room Byte.digit []) Byte.digit [] 0 =
        .failed [Byte.digit] 0 := by
      rw [item_eq_failed_iff, element_of_single (by decide) (by decide)]
      simp [show Op.ofByte Byte.digit = .digit from rfl, accepts, hc]
    have hlive : 0 < (#[c] : Array UInt8).size := Nat.zero_lt_one
    have hfail : (block Hop.of? #[c] room true [Byte.digit] 0 (some 1)).isFailed := by
      rw [block_element rfl hlive (by decide), hitem]
      rfl
    have hscan := framesOfBlock_scan_of_failed start rfl ho rfl rfl rfl hfail
    refine ⟨hscan.1, hscan.2.trans ?_⟩
    rw [framesOfBlock.eq_def]
    simp [show Op.ofByte Byte.digit = .digit from rfl, hitem]
  | succ n ih =>
    obtain ⟨hfail, hframes⟩ := ih false (some 1) (by decide)
    have hfirst : (block Hop.of? #[c] room true (Byte.boundary :: probeChain n) 0
        (some 1)).isFailed := by
      rwa [block_boundary_start rfl]
    have hscan := framesOfBlock_scan_of_failed start rfl ho rfl rfl rfl hfirst
    refine ⟨hscan.1, hscan.2.trans ?_⟩
    rw [framesOfBlock.eq_def]
    exact congrArg (· + 1) hframes

/-- Every check accepts a chain, which has no blocks. -/
theorem check_probeChain (limit : Nat) (strict : Bool) (n : Nat) :
    check limit strict (probeChain n) = .ok () := by
  have hwalk : ∀ total, walk limit strict total [] (probeChain n) = .ok () := fun total => by
    induction n with
    | zero =>
      rw [probeChain, walk_single (.inr (.inr rfl)),
        walk_plain (by decide) (by decide) (by decide) (by decide) (by decide), walk_nil_eq_ok]
      exact .inr rfl
    | succ n ih => rwa [probeChain, walk_single (.inr (.inr rfl)), walk_single (.inl rfl)]
  exact hwalk _

theorem nestedProbes_probeChain (start : Bool) (n : Nat) :
    nestedProbes start (probeChain n) = n + 1 := by
  induction n generalizing start with
  | zero =>
    rw [probeChain, nestedProbes_scan rfl (by decide)]
    decide +kernel
  | succ n ih =>
    have hend : ¬atBlockEnd (afterRun Byte.scan (Byte.boundary :: probeChain n)) :=
      Bool.false_ne_true
    rw [probeChain, nestedProbes_scan rfl hend]
    exact congrArg (· + 1) ((nestedProbes_boundary rfl).trans (ih false))

theorem maxProbes_probeChain (n : Nat) : maxProbes (probeChain n) = n := by
  induction n with
  | zero => decide +kernel
  | succ n ih =>
    have hprobes : nestedProbes true (Byte.boundary :: probeChain n) = n + 1 :=
      (nestedProbes_boundary rfl).trans (nestedProbes_probeChain false n)
    have hbehind : maxProbes (Byte.boundary :: probeChain n) = n := by
      rw [maxProbes.eq_def]
      exact ih
    rw [maxProbes.eq_def]
    change max (nestedProbes true (Byte.boundary :: probeChain n))
      (maxProbes (Byte.boundary :: probeChain n)) = n + 1
    omega

/-- **The recursion of a match is not bounded by its limit alone.**  For each number of probes there
is a pattern that every check accepts, with no blocks in it, that starts so many in a probe, and
that needs a frame for each of them on a single byte of data. -/
theorem framesOfRun_probeChain (hc : Byte.isDigit c = false) (n limit : Nat) (strict : Bool) :
    check limit strict (probeChain n) = .ok () ∧
      framesOfRun { maxOps := none, nesting := limit } (probeChain n) 0 #[c] 0 =
        maxProbes (probeChain n) + 2 := by
  have hlive : ¬(0 = (#[c] : Array UInt8).size) := Nat.zero_ne_one
  refine ⟨check_probeChain limit strict n, ?_⟩
  simp only [framesOfRun, List.drop_zero, Nat.zero_min, hlive, false_and, if_false,
    maxProbes_probeChain]
  exact (framesOfBlock_probeChain hc n limit true none (by decide)).2

/-- On `b`, `` ~`~# `` needs a frame of its own for the scan at each of its `~`, and one for the
digit, but it may enter no block. -/
theorem framesOfRun_not_le_nesting :
    ¬∀ (limit : Nat) (pattern : Bytes), check limit true pattern = .ok () →
      ∀ (maxOps : Option Nat) (data : Array UInt8) (d : Nat),
        framesOfRun { maxOps, nesting := limit } pattern 0 data d ≤ 2 * (limit + 1) := by
  intro hbound
  have hthree := hbound 0 [126, 96, 126, 35] (check_eq_ok (by decide +kernel)) none #[98] 0
  revert hthree
  decide +kernel

end LinearPattern
