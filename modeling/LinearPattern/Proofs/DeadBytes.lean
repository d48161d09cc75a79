import LinearPattern.Proofs.Fence
import LinearPattern.Proofs.PlainScan

/-!
# Dead bytes

A run that starts in front of a fence stops at it at the latest, and all that it does on the way is
done from the bytes in front of the fence: what follows the fence is carried along in its places and
never read (`Config.outcome_append`).  So any other bytes may follow instead
(`matchFrom_append_of_fenced`).

* `matchFrom_dead_of_close`: bytes behind the close of the block that a match starts in are dead;
* `matchFrom_dead_of_boundary`: so are bytes behind a boundary, unless it stands behind a `~`;
* `matchFrom_not_dead_of_scan`: behind a `~` they are not.
-/

namespace LinearPattern

/-- The same outcome with more bytes behind its place. -/
def Outcome.append (more : Bytes) : Outcome → Outcome
  | .reached ps d => .reached (ps ++ more) d
  | .failed ps d => .failed (ps ++ more) d
  | .ended ps d => .ended (ps ++ more) d

theorem Outcome.append_append (o : Outcome) (more more' : Bytes) :
    (o.append more).append more' = o.append (more ++ more') := by
  cases o <;> simp only [append, List.append_assoc]

@[simp] theorem Outcome.isFailed_append (more : Bytes) (o : Outcome) :
    (o.append more).isFailed = o.isFailed := by
  cases o <;> rfl

/-- Bytes behind the place and behind the pattern do not move the positions of a verdict. -/
theorem Outcome.verdict_append (pattern more : Bytes) (o : Outcome) :
    (o.append more).verdict (pattern ++ more) = o.verdict pattern := by
  cases o <;> simp only [append, verdict, List.length_append, Nat.add_sub_add_right]

variable {data : Array UInt8}

/-! ### Elements and items -/

section

variable {body body' : Nat → Outcome} {skips : Bool} {depth : Nat} {b : UInt8} {rest : Bytes}
  {more : Bytes}

/-- An element carries along what follows it, if it is passed over and read without it and its body
carries it along. -/
theorem element_append (hafter : afterElement b (rest ++ more) = afterElement b rest ++ more)
    (haccepts : ∀ c, accepts (Op.ofByte b) b (rest ++ more) c = accepts (Op.ofByte b) b rest c)
    {d : Nat} (hbody : Op.ofByte b = .group ∨ Op.ofByte b = .option →
      body' d = (body d).append more) :
    element data body' b (rest ++ more) d = (element data body b rest d).append more := by
  by_cases hg : Op.ofByte b = .group
  · rw [element_group hg, element_group hg, hbody (.inl hg), hafter]
    cases body d <;> rfl
  by_cases ho : Op.ofByte b = .option
  · rw [element_option ho, element_option ho, hbody (.inr ho), hafter]
    cases body d <;> rfl
  · rw [element_of_single hg ho, element_of_single hg ho, hafter]
    cases data[d]? with
    | none => rfl
    | some c =>
      simp only [haccepts c]
      split
      · rfl
      · rfl

theorem repeated_append {once once' : Nat → Outcome} (h : ∀ e, once' e = (once e).append more)
    (after : Bytes) (size d : Nat) :
    repeated once' (after ++ more) size d = (repeated once after size d).append more := by
  fun_induction repeated once after size d with
  | case1 d hd ps e ho he ih =>
    rw [repeated, if_pos hd, h, ho]
    simp only [Outcome.append, he, if_true]
    exact ih
  | case2 d hd ps e ho he =>
    rw [repeated, if_pos hd, h, ho]
    simp only [Outcome.append, he, if_false]
  | case3 d hd ps e ho =>
    rw [repeated, if_pos hd, h, ho]
    rfl
  | case4 d hd ps e ho =>
    rw [repeated, if_pos hd, h, ho]
    rfl
  | case5 d hd =>
    rw [repeated, if_neg hd]
    rfl

/-- An item carries along what follows it, if its element does and if none of the `+` behind it are
in what follows. -/
theorem item_append_of_element
    (honce : ∀ e, element data body' b (rest ++ more) e = (element data body b rest e).append more)
    (hhead : (afterElement b rest ++ more).head? = some Byte.plus ↔
      (afterElement b rest).head? = some Byte.plus)
    (hrun : afterRun Byte.plus (afterElement b rest ++ more) =
      afterRun Byte.plus (afterElement b rest) ++ more) (d : Nat) :
    item data body' b (rest ++ more) d = (item data body b rest d).append more := by
  unfold item
  rw [honce d]
  cases he : element data body b rest d with
  | reached ps e =>
    obtain rfl := element_reached he
    simp only [Outcome.append, hhead, hrun]
    split
    · exact repeated_append honce _ _ e
    · rfl
  | failed ps e => rfl
  | ended ps e => rfl

theorem item_append (h : fenced skips depth (b :: rest)) (hop : (Op.ofByte b).startsElement)
    (hbody : Op.ofByte b = .group ∨ Op.ofByte b = .option → ∀ e, body' e = (body e).append more)
    (d : Nat) :
    item data body' b (rest ++ more) d = (item data body b rest d).append more := by
  obtain ⟨hfenced, hafter⟩ := afterElement_of_fenced h hop
  have honce : ∀ e, element data body' b (rest ++ more) e =
      (element data body b rest e).append more := fun e =>
    element_append (hafter more) (accepts_of_fenced h more) fun hblock => hbody hblock e
  have hhead : (afterElement b rest ++ more).head? = (afterElement b rest).head? := by
    obtain ⟨x, behind, hx⟩ := List.exists_cons_of_ne_nil (fenced_ne_nil hfenced)
    rw [hx]
    rfl
  exact item_append_of_element honce (by rw [hhead])
    (afterRun_append (fenced_ne_nil (fenced_afterRun_plus hfenced)) more) d

end

/-! ### Blocks -/

namespace Config

/-- The same configuration with more bytes behind its place. -/
def append (c : Config) (more : Bytes) : Config := { c with place := c.place ++ more }

/-- The place of the block is in front of a fence. -/
def InFence (c : Config) : Prop :=
  ∃ skips depth, fenced skips depth c.place ∧ (c.start → skips)

/-- Runs from places shorter than this one carry the bytes behind a fence along. -/
def AppendsBelow (data : Array UInt8) (more : Bytes) (c : Config) : Prop :=
  ∀ c' : Config, c'.place.length < c.place.length → c'.InFence →
    (c'.append more).outcome (fun _ => none) data =
      (c'.outcome (fun _ => none) data).append more

section

variable {c c' : Config} {more : Bytes}

/-- A step does not pass the fence. -/
theorem Step.inFence (h : Step (fun _ => none) data c c') (hf : c.InFence) : c'.InFence := by
  obtain ⟨skips, depth, hfenced, hstart⟩ := hf
  cases h with
  | boundary h =>
    rw [fenced_boundary h] at hfenced
    split at hfenced
    · simp [hstart rfl] at hfenced
    · exact ⟨_, depth, hfenced, by simp⟩
  | plus h => exact ⟨_, depth, fenced_plus h ▸ hfenced, by simp⟩
  | scanNothing h =>
    exact ⟨true, depth, fenced_afterRun_scan (fenced_scan h ▸ hfenced), by simp⟩
  | scan h => exact ⟨true, depth, fenced_afterRun_scan (fenced_scan h ▸ hfenced), by simp⟩
  | item h => exact ⟨false, depth, (afterItem_of_fenced hfenced h).1, by simp⟩

theorem locate_probeAt_append (ih : c.AppendsBelow data more) (hf : c.InFence) {b : UInt8}
    {rest : Bytes} (hplace : c.place = b :: rest) (hop : Op.ofByte b = .scan) :
    afterRun Byte.scan (rest ++ more) = afterRun Byte.scan rest ++ more ∧
      atBlockEnd (afterRun Byte.scan rest ++ more) = atBlockEnd (afterRun Byte.scan rest) ∧
      locate none data (probeAt (fun _ => none) data c.room (afterRun Byte.scan rest ++ more))
          c.pos =
        locate none data (probeAt (fun _ => none) data c.room (afterRun Byte.scan rest)) c.pos := by
  obtain ⟨skips, depth, hfenced, -⟩ := hf
  rw [hplace, fenced_scan hop] at hfenced
  have htarget := fenced_afterRun_scan hfenced
  refine ⟨afterRun_append (fenced_ne_nil htarget) more, ?_, locate_congr fun e _ _ => ?_⟩
  · obtain ⟨x, behind, hx⟩ := List.exists_cons_of_ne_nil (fenced_ne_nil htarget)
    rw [hx]
    rfl
  · have hprobe : probeAt (fun _ => none) data c.room (afterRun Byte.scan rest ++ more) e =
        (probeAt (fun _ => none) data c.room (afterRun Byte.scan rest) e).append more := by
      refine ih ⟨c.room, true, afterRun Byte.scan rest, e, some 1⟩ ?_
        ⟨true, depth, htarget, fun _ => rfl⟩
      rw [hplace]
      exact Nat.lt_succ_of_le (afterRun_suffix _ _).length_le
    rw [hprobe, Outcome.isFailed_append]

theorem item_bodyAt_append (ih : c.AppendsBelow data more) (hf : c.InFence) {b : UInt8}
    {rest : Bytes} (hplace : c.place = b :: rest) (hop : (Op.ofByte b).startsElement) :
    item data (bodyAt (fun _ => none) data c.room b (rest ++ more)) b (rest ++ more) c.pos =
      (item data (bodyAt (fun _ => none) data c.room b rest) b rest c.pos).append more := by
  obtain ⟨skips, depth, hfenced, -⟩ := hf
  rw [hplace] at hfenced
  refine item_append hfenced hop (fun hblock e => ?_) _
  cases c.room with
  | zero => rfl
  | succ inner =>
    refine ih ⟨inner, true, rest, e, none⟩ ?_
      ⟨true, depth + 1, fenced_open hblock ▸ hfenced, fun _ => rfl⟩
    rw [hplace]
    exact Nat.lt_succ_self _

/-- A step is taken with more bytes behind the fence, too. -/
theorem Step.append (h : Step (fun _ => none) data c c') (ih : c.AppendsBelow data more)
    (hf : c.InFence) : Step (fun _ => none) data (c.append more) (c'.append more) := by
  cases h with
  | boundary h => exact .boundary h
  | plus h hd ho => exact .plus h hd ho
  | @scanNothing room start b rest d ops h hd ho ht =>
    obtain ⟨hrun, hend, -⟩ := locate_probeAt_append ih hf rfl h
    have hstep : Step (fun _ => none) data ⟨room, start, b :: (rest ++ more), d, ops⟩
        ⟨room, false, afterRun Byte.scan (rest ++ more), d, spend ops⟩ :=
      .scanNothing h hd ho (by rwa [hrun, hend])
    rwa [hrun] at hstep
  | @scan room start b rest d ops e h hd ho ht hl =>
    obtain ⟨hrun, hend, hlocate⟩ := locate_probeAt_append ih hf rfl h
    have hstep : Step (fun _ => none) data ⟨room, start, b :: (rest ++ more), d, ops⟩
        ⟨room, false, afterRun Byte.scan (rest ++ more), e, spend ops⟩ :=
      .scan h hd ho (by rwa [hrun, hend]) (by rw [hrun]; exact hlocate.trans hl)
    rwa [hrun] at hstep
  | @item room start b rest d ops qs e h hd ho hi =>
    obtain ⟨skips, depth, hfenced, -⟩ := id hf
    have hitem := item_bodyAt_append ih hf rfl h
    rw [hi] at hitem
    have hstep : Step (fun _ => none) data ⟨room, start, b :: (rest ++ more), d, ops⟩
        ⟨room, false, afterItem b (rest ++ more), e, spend ops⟩ := .item h hd ho hitem
    rwa [(afterItem_of_fenced hfenced h).2] at hstep

/-- A block stops with more bytes behind the fence, too. -/
theorem Stop.append {o : Outcome} (h : Stop (fun _ => none) data c o)
    (ih : c.AppendsBelow data more) (hf : c.InFence) :
    Stop (fun _ => none) data (c.append more) (o.append more) := by
  cases h with
  | nil =>
    obtain ⟨_, _, hfenced, -⟩ := hf
    exact absurd rfl (fenced_ne_nil hfenced)
  | close h => exact .close h
  | boundary h => exact .boundary h
  | idle hc hb h => exact .idle hc hb h
  | @scan room start b rest d ops h hd ho ht hl =>
    obtain ⟨hrun, hend, hlocate⟩ := locate_probeAt_append ih hf rfl h
    have hstop : Stop (fun _ => none) data ⟨room, start, b :: (rest ++ more), d, ops⟩
        (.failed (b :: (rest ++ more)) d) :=
      .scan h hd ho (by rwa [hrun, hend]) (by rw [hrun]; exact hlocate.trans hl)
    exact hstop
  | failed h hd ho hi =>
    exact .failed h hd ho ((item_bodyAt_append ih hf rfl h).trans (by rw [hi]; rfl))
  | ended h hd ho hi =>
    exact .ended h hd ho ((item_bodyAt_append ih hf rfl h).trans (by rw [hi]; rfl))

end

/-- A run from inside of a fence carries the bytes behind it along. -/
theorem outcome_append (more : Bytes) (c : Config) (hf : c.InFence) :
    (c.append more).outcome (fun _ => none) data =
      (c.outcome (fun _ => none) data).append more := by
  induction c using induction with
  | h c ih =>
    rcases c.step_or_stop (fun _ => none) data with ⟨c', h⟩ | ⟨o, h⟩
    · rw [(h.append ih hf).outcome_eq, h.outcome_eq]
      exact ih c' h.length_lt (h.inFence hf)
    · rw [(h.append ih hf).outcome_eq, h.outcome_eq]

end Config

/-! ### Accepted elements -/

section

variable {limit total : Nat} {opened : List Bytes} {b : UInt8} {rest : Bytes}

/-- The inner runs of a block that a strict check accepts carry along what follows it: the close of
the block is a fence. -/
theorem bodyAt_append_of_walk (hop : Op.ofByte b = .group ∨ Op.ofByte b = .option)
    (hw : walk limit true total opened (b :: rest) = .ok ()) (room : Nat) (more : Bytes) (d : Nat) :
    bodyAt (fun _ => none) data room b (rest ++ more) d =
      (bodyAt (fun _ => none) data room b rest d).append more := by
  cases room with
  | zero => rfl
  | succ inner =>
    obtain ⟨inside, z, hrest, -, hfenced⟩ :=
      exists_fenced_of_afterBlock? (closedBlock_of_walk hop hw) true
    have hclosed : Config.InFence ⟨inner, true, inside ++ [z], d, none⟩ :=
      ⟨true, 0, hfenced, fun _ => rfl⟩
    have happend : ∀ behind, block (fun _ => none) data inner true (inside ++ [z] ++ behind) d none =
        (block (fun _ => none) data inner true (inside ++ [z]) d none).append behind := fun behind =>
      Config.outcome_append behind _ hclosed
    show block (fun _ => none) data inner true (rest ++ more) d none =
      (block (fun _ => none) data inner true rest d none).append more
    have hplace : rest = inside ++ [z] ++ afterBlock 0 rest := by simpa using hrest
    rw [hplace, List.append_assoc _ _ more, happend, happend, Outcome.append_append]

/-- An element that a strict check accepts carries along what follows it, if it is not a backslash
at the end of the pattern. -/
theorem element_append_of_walk (hw : walk limit true total opened (b :: rest) = .ok ())
    (hback : Op.ofByte b = .escape → rest ≠ []) (room : Nat) (more : Bytes) (d : Nat) :
    element data (bodyAt (fun _ => none) data room b (rest ++ more)) b (rest ++ more) d =
      (element data (bodyAt (fun _ => none) data room b rest) b rest d).append more :=
  element_append (afterElement_append hw hback more) (accepts_append hw hback more) fun hop =>
    bodyAt_append_of_walk hop hw room more d

end

/-! ### Whole matches -/

section

variable {skips : Bool} {depth : Nat} {ps more : Bytes}

/-- A boundary at the start is passed over inside of the fence. -/
theorem afterBoundary_of_fenced (h : fenced true depth ps) (more : Bytes) :
    fenced false depth (afterBoundary ps) ∧
      afterBoundary (ps ++ more) = afterBoundary ps ++ more := by
  cases ps with
  | nil => exact absurd rfl (fenced_ne_nil h)
  | cons b rest =>
    rw [List.cons_append, afterBoundary, afterBoundary]
    by_cases hb : b = Byte.boundary
    · subst hb
      rw [fenced_boundary rfl] at h
      split at h
      · simp at h
      · exact ⟨h, rfl⟩
    · rw [if_neg (by simpa using hb), if_neg (by simpa using hb)]
      exact ⟨fenced_of_skips h, rfl⟩

theorem needsData_of_fenced (h : fenced skips depth ps) :
    needsData (ps ++ more) = needsData ps := by
  cases ps with
  | nil => exact absurd rfl (fenced_ne_nil h)
  | cons b rest =>
    rw [List.cons_append, needsData, needsData]
    cases hop : Op.ofByte b with
    | scan =>
      rw [fenced_scan hop] at h
      obtain ⟨x, behind, hx⟩ := List.exists_cons_of_ne_nil (fenced_ne_nil (fenced_afterRun_scan h))
      simp only [afterRun_append (fenced_ne_nil (fenced_afterRun_scan h)), hx, List.cons_append,
        atBlockEnd]
    | _ => rfl

theorem run_append (h : fenced true depth ps) (bounds : Bounds) (data : Array UInt8) (d : Nat) :
    run Hop.of? bounds (ps ++ more) data d = (run Hop.of? bounds ps data d).append more := by
  obtain ⟨hfirst, hafter⟩ := afterBoundary_of_fenced h more
  have hblock : block (fun _ => none) data bounds.nesting true (ps ++ more) d bounds.maxOps =
      (block (fun _ => none) data bounds.nesting true ps d bounds.maxOps).append more :=
    Config.outcome_append more ⟨bounds.nesting, true, ps, d, bounds.maxOps⟩
      ⟨true, depth, h, fun _ => rfl⟩
  rw [run_plain, run_plain, run, run, hblock, hafter, needsData_of_fenced hfirst]
  split
  · rfl
  · rfl

/-- Where a match starts in front of a fence at the end of a pattern, nothing is read of what
follows the pattern. -/
theorem matchFrom_append_of_fenced {pattern : Bytes} {p : Nat}
    (h : fenced true depth (pattern.drop p)) (bounds : Bounds) (more : Bytes) (data : Array UInt8)
    (d : Nat) :
    matchFrom bounds (pattern ++ more) p data d = matchFrom bounds pattern p data d := by
  have hp : p ≤ pattern.length := by
    have hpos := List.length_pos_iff.mpr (fenced_ne_nil h)
    rw [List.length_drop] at hpos
    omega
  rw [matchFrom, matchFrom, matchUsing, matchUsing, List.drop_append_of_le_length hp, run_append h,
    Outcome.verdict_append]

end

/-- A block that is closed is read up to its close. -/
theorem blockEnd?_eq_some {pattern : Bytes} {p e : Nat} (h : blockEnd? pattern p = some e) :
    blockEnd pattern p = e ∧ p < e ∧ (∃ z, pattern[e - 1]? = some z ∧ Op.ofByte z = .close) ∧
      fenced true 0 ((pattern.take e).drop p) := by
  obtain ⟨rest, hrest, rfl⟩ := Option.map_eq_some_iff.mp h
  obtain ⟨inner, z, hdrop, hclose, hfenced⟩ := exists_fenced_of_afterBlock? hrest true
  have hlength : pattern.length = p + (inner.length + 1 + rest.length) := by
    have hlen := congrArg List.length hdrop
    simp only [List.length_drop, List.length_append, List.length_cons] at hlen
    omega
  have hend : pattern.length - rest.length = p + (inner.length + 1) := by omega
  rw [hend]
  refine ⟨?_, by omega, ⟨z, ?_, hclose⟩, ?_⟩
  · rw [blockEnd, afterBlock_eq_getD, hrest, Option.getD_some, hend]
  · rw [show p + (inner.length + 1) - 1 = p + inner.length by omega, ← List.getElem?_drop, hdrop]
    simp
  · rw [List.drop_take, hdrop, Nat.add_sub_cancel_left, List.append_cons,
      List.take_left' (by simp)]
    exact hfenced

/-- **Bytes behind the close of a block are dead.**  Where the block that a match starts in is
closed, the position behind it is the one behind its close, and any other bytes may follow there:
the verdict stays the same. -/
theorem matchFrom_dead_of_close {pattern : Bytes} {p e : Nat}
    (h : blockEnd? pattern p = some e) :
    (blockEnd pattern p = e ∧ p < e ∧ ∃ z, pattern[e - 1]? = some z ∧ Op.ofByte z = .close) ∧
      ∀ (bounds : Bounds) (more : Bytes) (data : Array UInt8) (d : Nat),
        matchFrom bounds (pattern.take e ++ more) p data d = matchFrom bounds pattern p data d := by
  obtain ⟨hend, hlt, hclose, hfenced⟩ := blockEnd?_eq_some h
  refine ⟨⟨hend, hlt, hclose⟩, fun bounds more data d => ?_⟩
  rw [matchFrom_append_of_fenced hfenced]
  conv => rhs; rw [← List.take_append_drop e pattern]
  rw [matchFrom_append_of_fenced hfenced]

/-- `(a{)}[b\])~c)+x` on `a)bbc`, started inside the group: the parenthesis in the set and the
escaped bracket close nothing, and what follows the last parenthesis may be replaced by `[y`. -/
theorem matchFrom_dead_of_close_nested :
    let pattern : Bytes := [40, 97, 123, 41, 125, 91, 98, 92, 93, 93, 126, 99, 41, 43, 120]
    let data : Array UInt8 := #[97, 41, 98, 98, 99]
    blockEnd? pattern 1 = some 13 ∧
      matchFrom { maxOps := none, nesting := 1 } (pattern.take 13 ++ [91, 121]) 1 data 0 =
        .matched 13 5 := by
  intro pattern data
  have hend : blockEnd? pattern 1 = some 13 := by decide +kernel
  refine ⟨hend, ?_⟩
  rw [(matchFrom_dead_of_close hend).2]
  decide +kernel

/-- **Bytes behind a boundary are dead.**  A pattern that a strict check accepts, followed by a
boundary, comes to the same verdict whatever follows the boundary, unless the pattern is empty, ends
in a backslash that escapes the boundary, or ends in a `~`. -/
theorem matchFrom_dead_of_boundary {limit : Nat} {pattern : Bytes}
    (hcheck : check limit true pattern = .ok ()) (hne : pattern ≠ [])
    (hback : ¬EndsIn Byte.escape pattern) (hscan : ¬EndsIn Byte.scan pattern) (bounds : Bounds)
    (more more' : Bytes) (data : Array UInt8) (d : Nat) :
    matchFrom bounds (pattern ++ Byte.boundary :: more) 0 data d =
      matchFrom bounds (pattern ++ Byte.boundary :: more') 0 data d := by
  have hfenced : fenced true 0 ((pattern ++ [Byte.boundary]).drop 0) :=
    fenced_of_walk hcheck hne hback hscan true
  rw [List.append_cons, matchFrom_append_of_fenced hfenced, List.append_cons pattern _ more',
    matchFrom_append_of_fenced hfenced]

/-- `` `(a[~b])+\~`` in front of a boundary, on `axbac~`: the last `~` is escaped, and the group
with the scan is closed, so that the `[d` behind the boundary does not matter. -/
theorem matchFrom_dead_of_boundary_escaped :
    let pattern : Bytes := [96, 40, 97, 91, 126, 98, 93, 41, 43, 92, 126]
    let data : Array UInt8 := #[97, 120, 98, 97, 126, 99]
    (check 2 true pattern = .ok () ∧ pattern ≠ [] ∧ ¬EndsIn Byte.escape pattern ∧
        ¬EndsIn Byte.scan pattern) ∧
      matchFrom { maxOps := some 3, nesting := 2 } (pattern ++ Byte.boundary :: [91, 100]) 0 data
        0 = .matched 12 5 := by
  intro pattern data
  have hcheck : check 2 true pattern = .ok () := check_eq_ok (by decide +kernel)
  have hback : ¬EndsIn Byte.escape pattern := by decide +kernel
  have hscan : ¬EndsIn Byte.scan pattern := by decide +kernel
  refine ⟨⟨hcheck, by decide, hback, hscan⟩, ?_⟩
  rw [matchFrom_dead_of_boundary hcheck (by decide) hback hscan _ [91, 100] []]
  decide +kernel

/-- Bytes behind a boundary that stands behind a `~` are not dead: the probe of the scan skips the
boundary and tries the item behind it.  `` a~`b`` fails on `axx`, and `` a~` `` matches. -/
theorem matchFrom_not_dead_of_scan :
    ¬∀ (limit : Nat) (pattern : Bytes), check limit true pattern = .ok () → pattern ≠ [] →
      ¬EndsIn Byte.escape pattern →
      ∀ (maxOps : Option Nat) (more more' : Bytes) (data : Array UInt8) (d : Nat),
        matchFrom { maxOps, nesting := limit } (pattern ++ Byte.boundary :: more) 0 data d =
          matchFrom { maxOps, nesting := limit } (pattern ++ Byte.boundary :: more') 0 data d := by
  intro hdead
  have hsame := hdead 0 [97, 126] (check_eq_ok (by decide +kernel)) (by decide)
    (by decide +kernel) none [98] [] #[97, 120, 120] 0
  revert hsame
  decide +kernel

end LinearPattern
