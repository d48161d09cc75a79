import LinearPattern.Proofs.Repetition
import LinearPattern.Proofs.Resume

/-!
# Patterns between boundaries

A boundary in front of a pattern is skipped, and one behind it ends the match where the pattern
would have ended it.  So a pattern between two boundaries matches what the pattern matches, if it
has no boundaries of its own and if its last byte does not escape the one behind it.

* `Complete`: the rest of such a pattern;
* `Outcome.enclose`: what becomes of an outcome when a boundary is put behind the pattern;
* `Config.outcome_enclose`: that is what a run comes to with the boundary there.

The boundary is seen before the end of the pattern is: behind the last element by its `+`, which are
none of it, and by a `~` at the end of the pattern.  Without the boundary, that `~` has nothing to
look for; with it, its probe skips the boundary and succeeds at once.  Either way the scan stays
where it is.
-/

namespace LinearPattern

/-! ### The rest of a pattern -/

/-- The rest of a pattern that a strict check accepts, without boundaries, and not ended by a
backslash that escapes nothing. -/
structure Complete (limit total : Nat) (ps : Bytes) : Prop where
  accepted : walk limit true total [] ps = .ok ()
  no_boundary : hasBoundary ps = false
  no_escape : ¬EndsIn Byte.escape ps

/-- What a pattern ends in, it ends in behind its first element, unless that is the last one. -/
theorem EndsIn.of_afterElement {x b : UInt8} {rest : Bytes} (h : EndsIn x (afterElement b rest)) :
    EndsIn x (b :: rest) := by
  unfold EndsIn at h ⊢
  rw [lastElement, if_neg]
  · exact h
  · intro hnil
    rw [hnil, lastElement] at h
    cases h

namespace Complete

variable {limit total : Nat} {b : UInt8} {rest ps : Bytes}

theorem not_close (h : Complete limit total (b :: rest)) : Op.ofByte b ≠ .close :=
  not_close_of_walk h.accepted

theorem not_boundary (h : Complete limit total (b :: rest)) : Op.ofByte b ≠ .boundary := by
  intro hb
  have hboundary := h.no_boundary
  rw [hasBoundary_boundary hb] at hboundary
  cases hboundary

theorem operand_ne_nil (h : Complete limit total (b :: rest)) :
    Op.ofByte b = .escape → rest ≠ [] := by
  rintro hop rfl
  obtain rfl := Op.ofByte_eq_escape hop
  have hlast : afterElement Byte.escape [] = [] := rfl
  exact h.no_escape (by rw [EndsIn, lastElement, if_pos hlast])

theorem behindElement (h : Complete limit total (b :: rest)) :
    Complete limit total (afterElement b rest) :=
  ⟨walk_afterElement h.not_close h.accepted, hasBoundary_afterElement h.no_boundary,
    fun hends => h.no_escape hends.of_afterElement⟩

/-- Behind a `+` or a `~`, too. -/
theorem tail (hb : Op.ofByte b = .plus ∨ Op.ofByte b = .scan)
    (h : Complete limit total (b :: rest)) : Complete limit total rest := by
  have hrest : afterElement b rest = rest := by
    rcases hb with hb | hb <;> simp only [afterElement, hb]
  exact hrest ▸ h.behindElement

theorem behindRun {x : UInt8} (hx : Op.ofByte x = .plus ∨ Op.ofByte x = .scan)
    (h : Complete limit total ps) : Complete limit total (afterRun x ps) := by
  induction ps with
  | nil => exact h
  | cons b ps ih =>
    by_cases hb : b = x
    · subst hb
      rw [afterRun_cons_self]
      exact ih (h.tail hx)
    · rwa [afterRun_of_head?_ne (by simpa using hb)]

theorem behindItem (h : Complete limit total (b :: rest)) :
    Complete limit total (afterItem b rest) :=
  h.behindElement.behindRun (.inl rfl)

/-- There is no close that could end a block here, so nothing is left where no item follows. -/
theorem eq_nil_of_atBlockEnd (h : Complete limit total ps) (hend : atBlockEnd ps) : ps = [] := by
  cases ps with
  | nil => rfl
  | cons b rest => exact absurd (beq_iff_eq.mp hend) h.not_close

end Complete

/-- A run of another byte stops in front of a boundary. -/
theorem afterRun_append_boundary {x : UInt8} (hx : x ≠ Byte.boundary) (ps : Bytes) :
    afterRun x (ps ++ [Byte.boundary]) = afterRun x ps ++ [Byte.boundary] := by
  by_cases h : afterRun x ps = []
  · have hall : ps.dropWhile (· == x) = [] := h
    rw [h, afterRun, List.dropWhile_append, hall]
    exact afterRun_of_head?_ne (by simpa using hx.symm)
  · exact afterRun_append h _

namespace Complete

variable {limit total : Nat} {b : UInt8} {rest : Bytes}

theorem afterItem_append (h : Complete limit total (b :: rest)) :
    afterItem b (rest ++ [Byte.boundary]) = afterItem b rest ++ [Byte.boundary] := by
  rw [afterItem, afterElement_append h.accepted h.operand_ne_nil,
    afterRun_append_boundary (by decide)]
  rfl

/-- An item carries a boundary behind the pattern along. -/
theorem item_append (h : Complete limit total (b :: rest)) (data : Array UInt8) (room d : Nat) :
    item data (bodyAt (fun _ => none) data room b (rest ++ [Byte.boundary])) b
        (rest ++ [Byte.boundary]) d =
      (item data (bodyAt (fun _ => none) data room b rest) b rest d).append [Byte.boundary] := by
  have hhead : (afterElement b rest ++ [Byte.boundary]).head? = some Byte.plus ↔
      (afterElement b rest).head? = some Byte.plus := by
    cases afterElement b rest with
    | nil => decide
    | cons x behind => rfl
  exact item_append_of_element (element_append_of_walk h.accepted h.operand_ne_nil room _) hhead
    (afterRun_append_boundary (by decide) _) d

end Complete

/-! ### Outcomes -/

/-- The outcome with a boundary behind the pattern: the boundary ends the match at the end of the
pattern. -/
def Outcome.enclose : Outcome → Outcome
  | .reached [] d => .ended [] d
  | o => o.append [Byte.boundary]

@[simp] theorem Outcome.isFailed_enclose (o : Outcome) : o.enclose.isFailed = o.isFailed := by
  cases o with
  | reached ps d => cases ps <;> rfl
  | failed ps d => rfl
  | ended ps d => rfl

/-! ### Blocks -/

variable {data : Array UInt8}

namespace Config

/-- The place of the block is in a pattern that may be put between boundaries, and the block does
not start at its end. -/
def Enclosable (limit total : Nat) (c : Config) : Prop :=
  Complete limit total c.place ∧ (c.start → c.place ≠ [])

/-- Runs from places shorter than this one come to what they should with a boundary behind them. -/
def EnclosesBelow (data : Array UInt8) (limit total : Nat) (c : Config) : Prop :=
  ∀ c' : Config, c'.place.length < c.place.length → c'.Enclosable limit total →
    (c'.append [Byte.boundary]).outcome (fun _ => none) data =
      (c'.outcome (fun _ => none) data).enclose

section

variable {limit total : Nat} {c c' : Config}

theorem Step.enclosable (h : Step (fun _ => none) data c c') (hc : c.Enclosable limit total) :
    c'.Enclosable limit total := by
  cases h with
  | boundary h => exact absurd h hc.1.not_boundary
  | plus h => exact ⟨hc.1.tail (.inl h), by simp⟩
  | scanNothing h => exact ⟨(hc.1.tail (.inr h)).behindRun (.inr rfl), by simp⟩
  | scan h => exact ⟨(hc.1.tail (.inr h)).behindRun (.inr rfl), by simp⟩
  | item => exact ⟨hc.1.behindItem, by simp⟩

/-- A scan finds the same position with a boundary behind the pattern. -/
theorem locate_probeAt_enclose (ih : c.EnclosesBelow data limit total)
    (hc : c.Enclosable limit total) {b : UInt8} {rest : Bytes} (hplace : c.place = b :: rest)
    (hop : Op.ofByte b = .scan) (ht : ¬atBlockEnd (afterRun Byte.scan rest)) :
    ¬atBlockEnd (afterRun Byte.scan rest ++ [Byte.boundary]) ∧
      locate none data
          (probeAt (fun _ => none) data c.room (afterRun Byte.scan rest ++ [Byte.boundary])) c.pos =
        locate none data (probeAt (fun _ => none) data c.room (afterRun Byte.scan rest)) c.pos := by
  have htarget : Complete limit total (afterRun Byte.scan rest) :=
    ((hplace ▸ hc.1).tail (.inr hop)).behindRun (.inr rfl)
  have hne : afterRun Byte.scan rest ≠ [] := by
    intro hnil
    rw [hnil] at ht
    exact ht rfl
  refine ⟨?_, locate_congr fun e _ _ => ?_⟩
  · obtain ⟨x, behind, hx⟩ := List.exists_cons_of_ne_nil hne
    rwa [hx] at ht ⊢
  · have hprobe := ih ⟨c.room, true, afterRun Byte.scan rest, e, some 1⟩ (by
      rw [hplace]
      exact Nat.lt_succ_of_le (afterRun_suffix _ _).length_le) ⟨htarget, fun _ => hne⟩
    exact (congrArg Outcome.isFailed hprobe).trans (Outcome.isFailed_enclose _)

/-- A step is taken with a boundary behind the pattern, too. -/
theorem Step.enclose (h : Step (fun _ => none) data c c') (ih : c.EnclosesBelow data limit total)
    (hc : c.Enclosable limit total) :
    Step (fun _ => none) data (c.append [Byte.boundary]) (c'.append [Byte.boundary]) := by
  cases h with
  | boundary h => exact absurd h hc.1.not_boundary
  | plus h hd ho => exact .plus h hd ho
  | @scanNothing room start b rest d ops h hd ho ht =>
    have htarget := (hc.1.tail (.inr h)).behindRun (.inr rfl : Op.ofByte Byte.scan = .plus ∨ _)
    have hnil := htarget.eq_nil_of_atBlockEnd ht
    have hrun : afterRun Byte.scan (rest ++ [Byte.boundary]) = [Byte.boundary] := by
      rw [afterRun_append_boundary (by decide), hnil, List.nil_append]
    -- the probe skips the boundary, and there is nothing behind it to fail
    have hprobe : probeAt (fun _ => none) data room [Byte.boundary] d = .reached [] d :=
      (block_boundary_start rfl).trans block_nil
    have hlocate : locate none data (probeAt (fun _ => none) data room [Byte.boundary]) d =
        some d := by
      rw [locate_noHop, firstSuccess_of_success hd (by simp [hprobe, Outcome.isFailed])]
    have hstep : Step (fun _ => none) data ⟨room, start, b :: (rest ++ [Byte.boundary]), d, ops⟩
        ⟨room, false, afterRun Byte.scan (rest ++ [Byte.boundary]), d, spend ops⟩ := by
      refine .scan h hd ho ?_ ?_
      · rw [hrun]
        decide
      · rw [hrun]
        exact hlocate
    rw [hrun] at hstep
    show Step _ _ _ ⟨room, false, afterRun Byte.scan rest ++ [Byte.boundary], d, spend ops⟩
    rw [hnil]
    exact hstep
  | @scan room start b rest d ops e h hd ho ht hl =>
    obtain ⟨hend, hlocate⟩ := locate_probeAt_enclose ih hc rfl h ht
    have hrun := afterRun_append_boundary (by decide : Byte.scan ≠ Byte.boundary) rest
    have hstep : Step (fun _ => none) data ⟨room, start, b :: (rest ++ [Byte.boundary]), d, ops⟩
        ⟨room, false, afterRun Byte.scan (rest ++ [Byte.boundary]), e, spend ops⟩ :=
      .scan h hd ho (by rwa [hrun]) (by rw [hrun]; exact hlocate.trans hl)
    rwa [hrun] at hstep
  | @item room start b rest d ops qs e h hd ho hi =>
    have hitem := hc.1.item_append data room d
    rw [hi] at hitem
    have hstep : Step (fun _ => none) data ⟨room, start, b :: (rest ++ [Byte.boundary]), d, ops⟩
        ⟨room, false, afterItem b (rest ++ [Byte.boundary]), e, spend ops⟩ := .item h hd ho hitem
    rwa [hc.1.afterItem_append] at hstep

/-- Where a block stops, the boundary ends the match or comes after the place. -/
theorem Stop.enclose {o : Outcome} (h : Stop (fun _ => none) data c o)
    (ih : c.EnclosesBelow data limit total) (hc : c.Enclosable limit total) :
    Stop (fun _ => none) data (c.append [Byte.boundary]) o.enclose := by
  cases h with
  | @nil room start d ops =>
    cases start with
    | true => exact absurd rfl (hc.2 rfl)
    | false => exact .boundary rfl
  | close h => exact absurd h hc.1.not_close
  | boundary h => exact absurd h hc.1.not_boundary
  | idle hcl hb h => exact .idle hcl hb h
  | @scan room start b rest d ops h hd ho ht hl =>
    obtain ⟨hend, hlocate⟩ := locate_probeAt_enclose ih hc rfl h ht
    have hrun := afterRun_append_boundary (by decide : Byte.scan ≠ Byte.boundary) rest
    have hstop : Stop (fun _ => none) data ⟨room, start, b :: (rest ++ [Byte.boundary]), d, ops⟩
        (.failed (b :: (rest ++ [Byte.boundary])) d) :=
      .scan h hd ho (by rwa [hrun]) (by rw [hrun]; exact hlocate.trans hl)
    exact hstop
  | @failed room start b rest d ops qs e h hd ho hi =>
    exact .failed h hd ho ((hc.1.item_append data room d).trans (by rw [hi]; rfl))
  | @ended room start b rest d ops qs e h hd ho hi =>
    exact .ended h hd ho ((hc.1.item_append data room d).trans (by rw [hi]; rfl))

end

/-- A run comes to the same with a boundary behind the pattern, but the boundary ends it at the end
of the pattern. -/
theorem outcome_enclose {limit total : Nat} (c : Config) (hc : c.Enclosable limit total) :
    (c.append [Byte.boundary]).outcome (fun _ => none) data =
      (c.outcome (fun _ => none) data).enclose := by
  induction c using induction with
  | h c ih =>
    rcases c.step_or_stop (fun _ => none) data with ⟨c', h⟩ | ⟨o, h⟩
    · rw [(h.enclose ih hc).outcome_eq, h.outcome_eq]
      exact ih c' h.length_lt (h.enclosable hc)
    · rw [(h.enclose ih hc).outcome_eq, h.outcome_eq]

end Config

/-! ### Whole matches -/

section

variable {limit : Nat} {pattern : Bytes}

/-- The boundary in front is skipped, and the one behind is what the run comes to at the end. -/
theorem block_enclosed (hcheck : check limit true pattern = .ok ())
    (hboundary : hasBoundary pattern = false) (hback : ¬EndsIn Byte.escape pattern) (room d : Nat)
    (ops : Option Nat) :
    block (fun _ => none) data room true (Byte.boundary :: (pattern ++ [Byte.boundary])) d ops =
      (block (fun _ => none) data room true pattern d ops).enclose := by
  have hcomplete : Complete limit pattern.length pattern := ⟨hcheck, hboundary, hback⟩
  have hrun : block (fun _ => none) data room false (pattern ++ [Byte.boundary]) d ops =
      (block (fun _ => none) data room false pattern d ops).enclose :=
    Config.outcome_enclose ⟨room, false, pattern, d, ops⟩ ⟨hcomplete, by simp⟩
  rw [block_boundary_start rfl, hrun]
  cases pattern with
  | nil => rw [block_nil, block_nil]
  | cons b rest => rw [block_start hcomplete.not_boundary false true]

/-- The boundaries do not move the position in the data, and they move the one of a mismatch by
one. -/
theorem Outcome.verdict_enclose {o : Outcome} (h : o.place <:+ pattern) :
    (o.enclose.verdict (Byte.boundary :: pattern ++ [Byte.boundary])).dataNumber =
        (o.verdict pattern).dataNumber ∧
      ∀ pn e, o.verdict pattern = .mismatched pn e →
        o.enclose.verdict (Byte.boundary :: pattern ++ [Byte.boundary]) =
          .mismatched (pn + 1) e := by
  constructor
  · cases o with
    | reached ps d => cases ps <;> rfl
    | failed ps d => rfl
    | ended ps d => rfl
  · intro pn e hv
    cases o with
    | reached ps d => cases hv
    | ended ps d => cases hv
    | failed ps d =>
      obtain ⟨rfl, rfl⟩ := Verdict.mismatched.inj hv
      have hle : ps.length ≤ pattern.length := h.length_le
      have hpos : (Byte.boundary :: pattern ++ [Byte.boundary]).length -
          (ps ++ [Byte.boundary]).length = pattern.length - ps.length + 1 := by
        simp only [List.cons_append, List.length_cons, List.length_append, List.length_nil]
        omega
      show Verdict.mismatched _ d = _
      rw [hpos]

/-- **Boundaries around a pattern change nothing.**  A pattern that a strict check accepts, that has
no boundary and does not end in a backslash that escapes nothing, comes to the same in the data when
it stands between two boundaries; the position of a mismatch in the pattern is the one behind. -/
theorem matchFrom_enclosed (hcheck : check limit true pattern = .ok ())
    (hboundary : hasBoundary pattern = false) (hback : ¬EndsIn Byte.escape pattern)
    (bounds : Bounds) {data : Array UInt8} {d : Nat} (hd : d < data.size) :
    (matchFrom bounds (Byte.boundary :: pattern ++ [Byte.boundary]) 0 data d).dataNumber =
        (matchFrom bounds pattern 0 data d).dataNumber ∧
      ∀ pn e, matchFrom bounds pattern 0 data d = .mismatched pn e →
        matchFrom bounds (Byte.boundary :: pattern ++ [Byte.boundary]) 0 data d =
          .mismatched (pn + 1) e := by
  rw [matchFrom_eq_block hd, matchFrom_eq_block hd, List.cons_append,
    block_enclosed hcheck hboundary hback]
  exact Outcome.verdict_enclose
    (Config.outcome_suffix ⟨bounds.nesting, true, pattern, d, bounds.maxOps⟩)

end

/-- ``~(a\`)+[b]c`` on ``xa`a`bd``: the boundary in the group is escaped.  The pattern fails at its
last byte, and so it does between boundaries. -/
theorem matchFrom_enclosed_escaped :
    let pattern : Bytes := [126, 40, 97, 92, 96, 41, 43, 91, 98, 93, 99]
    let data : Array UInt8 := #[120, 97, 96, 97, 96, 98, 100]
    (check 1 true pattern = .ok () ∧ hasBoundary pattern = false ∧
        ¬EndsIn Byte.escape pattern ∧ 0 < data.size) ∧
      matchFrom { maxOps := none, nesting := 1 } (Byte.boundary :: pattern ++ [Byte.boundary]) 0
        data 0 = .mismatched 11 6 := by
  intro pattern data
  have hcheck : check 1 true pattern = .ok () := check_eq_ok (by decide +kernel)
  have hboundary : hasBoundary pattern = false := by decide +kernel
  have hback : ¬EndsIn Byte.escape pattern := by decide +kernel
  refine ⟨⟨hcheck, hboundary, hback, by decide⟩, ?_⟩
  refine (matchFrom_enclosed hcheck hboundary hback _ (by decide)).2 10 6 ?_
  decide +kernel

end LinearPattern
