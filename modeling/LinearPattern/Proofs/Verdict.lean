import LinearPattern.Match.Verdict
import LinearPattern.Proofs.Machine

/-!
# What a verdict points at

A run holds a place of the pattern that it was started with and goes forwards in it
(`Config.outcome_suffix`), so both positions of a verdict lie behind those where the match starts
and in range (`matchUsing_matched`).  A run fails in front of an operator that can fail, while there
is data left (`Config.outcome_failed`): a mismatch points at that operator, and at a byte of the
data unless the match was started at the end of it (`matchUsing_mismatched`).
-/

namespace LinearPattern

/-- The operators at which a match can fail. -/
def Op.canFail : Op → Bool
  | .close => false
  | .boundary => false
  | .plus => false
  | .option => false
  | _ => true

theorem Op.canFail_of_startsElement {op : Op} (h : op.startsElement) (ho : op ≠ .option) :
    op.canFail := by
  cases op <;> simp_all [startsElement, canFail]

/-- The operators at which no match fails, byte by byte. -/
theorem Op.canFail_iff_not_mem {b : UInt8} :
    (ofByte b).canFail ↔ b ∉ [Byte.groupClose, Byte.optionClose, Byte.setClose, Byte.boundary,
      Byte.plus, Byte.optionOpen] := by
  constructor
  · intro h hb
    simp only [List.mem_cons, List.not_mem_nil, or_false] at hb
    rcases hb with rfl | rfl | rfl | rfl | rfl | rfl <;> cases h
  · intro h
    simp only [List.mem_cons, List.not_mem_nil, or_false, not_or] at h
    unfold ofByte
    split <;> simp_all [canFail]

/-- The place in the pattern. -/
def Outcome.place : Outcome → Bytes
  | .reached ps _ => ps
  | .failed ps _ => ps
  | .ended ps _ => ps

/-- The one number that a verdict gives for the data: the position, or its complement on a
mismatch. -/
def Verdict.dataNumber : Verdict → Int
  | .matched _ d => d
  | .mismatched _ d => -d - 1

/-- The place starts with an operator that can fail. -/
def BlamesOperator (ps : Bytes) : Prop := ∃ b rest, ps = b :: rest ∧ (Op.ofByte b).canFail

variable {hopAt : Bytes → Option Hop} {data : Array UInt8}

namespace Config

/-- The inner runs of a block stay in the pattern if all runs from shorter places do. -/
theorem bodyAt_suffix (room : Nat) {b : UInt8} {rest : Bytes}
    (h : ∀ c : Config, c.place.length < (b :: rest).length →
      (c.outcome hopAt data).place <:+ c.place)
    (e : Nat) : (bodyAt hopAt data room b rest e).place <:+ b :: rest := by
  cases room with
  | zero => exact List.suffix_refl _
  | succ inner =>
    exact (h ⟨inner, true, rest, e, none⟩ (Nat.lt_succ_self _)).trans (List.suffix_cons b rest)

/-- A run never goes backwards in the pattern. -/
theorem outcome_suffix (c : Config) : (c.outcome hopAt data).place <:+ c.place := by
  induction c using induction with
  | h c ih =>
    rcases c.step_or_stop hopAt data with ⟨c', h⟩ | ⟨o, h⟩
    · obtain ⟨b, rest, hplace, hsuffix⟩ := h.suffix
      rw [h.outcome_eq]
      exact (ih c' h.length_lt).trans (hsuffix.trans (hplace ▸ List.suffix_cons b rest))
    · rw [h.outcome_eq]
      cases h with
      | nil => exact List.suffix_refl _
      | close => exact List.suffix_cons _ _
      | boundary => exact List.suffix_cons _ _
      | idle => exact List.suffix_refl _
      | scan => exact List.suffix_refl _
      | @failed room _ b rest d _ qs e _ _ _ hi =>
        rcases element_failed (item_eq_failed_iff.mp hi) with ⟨-, hbody⟩ | ⟨rfl, -, -⟩
        · have hsuffix := bodyAt_suffix room ih d
          rwa [hbody] at hsuffix
        · exact List.suffix_refl _
      | @ended room _ b rest _ _ qs e _ _ _ hi =>
        obtain ⟨x, helement⟩ := item_ended hi
        have hsuffix := bodyAt_suffix room ih x
        rwa [(element_ended helement).2] at hsuffix

/-- A run fails in front of an operator that can fail, with data left. -/
theorem outcome_failed (c : Config) {qs : Bytes} {e : Nat}
    (h : c.outcome hopAt data = .failed qs e) : e < data.size ∧ BlamesOperator qs := by
  induction c using induction with
  | h c ih =>
    rcases c.step_or_stop hopAt data with ⟨c', hs⟩ | ⟨o, hs⟩
    · exact ih c' hs.length_lt (hs.outcome_eq ▸ h)
    · rw [hs.outcome_eq] at h
      subst h
      cases hs with
      | scan h hd => exact ⟨hd, _, _, rfl, by rw [h]; rfl⟩
      | @failed room _ b rest d _ _ _ h hd _ hi =>
        rcases element_failed (item_eq_failed_iff.mp hi) with ⟨hg, hbody⟩ | ⟨rfl, rfl, -, ho⟩
        · cases room with
          | zero =>
            -- there is no room for the group, so its open is to blame
            obtain ⟨rfl, rfl⟩ := Outcome.failed.inj hbody
            exact ⟨hd, b, rest, rfl, by rw [hg]; rfl⟩
          | succ inner => exact ih ⟨inner, true, rest, d, none⟩ (Nat.lt_succ_self _) hbody
        · exact ⟨hd, b, rest, rfl, Op.canFail_of_startsElement h ho⟩

end Config

/-! ### Whole matches -/

theorem afterBoundary_suffix (ps : Bytes) : afterBoundary ps <:+ ps := by
  cases ps with
  | nil => exact List.suffix_refl []
  | cons b rest =>
    rw [afterBoundary]
    split
    · exact List.suffix_cons b rest
    · exact List.suffix_refl _

/-- The position of the first operator behind a boundary at the start. -/
theorem drop_first (pattern : Bytes) (p : Nat) :
    pattern.drop (if pattern[p]? = some Byte.boundary then p + 1 else p) =
      afterBoundary (pattern.drop p) := by
  rw [← List.head?_drop]
  cases hdrop : pattern.drop p with
  | nil =>
    rw [if_neg nofun, hdrop]
    rfl
  | cons b rest =>
    rw [List.head?_cons, afterBoundary]
    by_cases hb : b = Byte.boundary
    · subst hb
      rw [if_pos rfl, ← List.drop_drop, hdrop]
      rfl
    · rw [if_neg (by simpa using hb), hdrop, if_neg (by simpa using hb)]

theorem drop_min_length (pattern : Bytes) (p : Nat) :
    pattern.drop (min p pattern.length) = pattern.drop p := by
  rcases Nat.le_total p pattern.length with hp | hp
  · rw [Nat.min_eq_left hp]
  · rw [Nat.min_eq_right hp, List.drop_length, List.drop_eq_nil_of_le hp]

/-- An operator that needs data can fail. -/
theorem blamesOperator_of_needsData {ps : Bytes} (h : needsData ps) : BlamesOperator ps := by
  cases ps with
  | nil => cases h
  | cons b rest =>
    refine ⟨b, rest, rfl, ?_⟩
    unfold needsData at h
    cases hop : Op.ofByte b <;> simp_all [Op.canFail]

/-- An operator that needs data is no boundary. -/
theorem afterBoundary_of_needsData {ps : Bytes} (h : needsData ps) : afterBoundary ps = ps := by
  cases ps with
  | nil => rfl
  | cons b rest =>
    rw [afterBoundary, if_neg]
    intro hb
    rw [beq_iff_eq.mp hb] at h
    cases h

/-- With data left, a match is the run of its pattern as a block. -/
theorem run_of_lt {bounds : Bounds} {ps : Bytes} {d : Nat} (hd : d < data.size) :
    run hopAt bounds ps data d = block hopAt data bounds.nesting true ps d bounds.maxOps := by
  rw [run, if_neg fun h => Nat.ne_of_lt hd h.1]

theorem matchFrom_of_lt {bounds : Bounds} {pattern : Bytes} {p d : Nat} (hd : d < data.size) :
    matchFrom bounds pattern p data d =
      (block Hop.of? data bounds.nesting true (pattern.drop p) d bounds.maxOps).verdict pattern := by
  rw [matchFrom, matchUsing, Nat.min_eq_left (Nat.le_of_lt hd), run_of_lt hd]

theorem run_suffix (hopAt : Bytes → Option Hop) (bounds : Bounds) (ps : Bytes) (data : Array UInt8)
    (d : Nat) : (run hopAt bounds ps data d).place <:+ ps := by
  unfold run
  split
  · exact afterBoundary_suffix ps
  · exact Config.outcome_suffix ⟨bounds.nesting, true, ps, d, bounds.maxOps⟩

theorem run_between (hopAt : Bytes → Option Hop) (bounds : Bounds) (ps : Bytes)
    {data : Array UInt8} {d : Nat} (hd : d ≤ data.size) :
    (run hopAt bounds ps data d).Between d data.size := by
  unfold run
  split
  · exact ⟨Nat.le_refl d, hd⟩
  · exact block_between hd

/-- A match fails in front of an operator that can fail, and with data left unless it was started
at the end of the data. -/
theorem run_failed {bounds : Bounds} {ps qs : Bytes} {d e : Nat}
    (h : run hopAt bounds ps data d = .failed qs e) :
    (d = data.size ∨ e < data.size) ∧ BlamesOperator qs := by
  unfold run at h
  split at h
  · next hguard =>
    obtain ⟨rfl, rfl⟩ := Outcome.failed.inj h
    exact ⟨.inl hguard.1, blamesOperator_of_needsData hguard.2.2⟩
  · obtain ⟨he, hblame⟩ :=
      Config.outcome_failed ⟨bounds.nesting, true, ps, d, bounds.maxOps⟩ h
    exact ⟨.inr he, hblame⟩

/-- The place that a match of a pattern comes to is given by its position. -/
theorem drop_of_run_suffix {pattern ps : Bytes} {p : Nat} (h : ps <:+ pattern.drop p) :
    pattern.drop (pattern.length - ps.length) = ps ∧
      min p pattern.length ≤ pattern.length - ps.length := by
  have hlength := h.length_le
  rw [List.length_drop] at hlength
  exact ⟨(List.suffix_iff_eq_drop.mp (h.trans (List.drop_suffix p pattern))).symm, by omega⟩

/-- A match ends behind where it starts, and in range. -/
theorem matchUsing_matched {bounds : Bounds} {pattern : Bytes} {p d pn e : Nat}
    (h : matchUsing hopAt bounds pattern p data d = .matched pn e) :
    min p pattern.length ≤ pn ∧ pn ≤ pattern.length ∧ min d data.size ≤ e ∧ e ≤ data.size := by
  have hsuffix := run_suffix hopAt bounds (pattern.drop p) data (min d data.size)
  have hbetween := run_between hopAt bounds (pattern.drop p) (Nat.min_le_right d data.size)
  unfold matchUsing at h
  cases ho : run hopAt bounds (pattern.drop p) data (min d data.size) with
  | failed => rw [ho] at h; cases h
  | _ =>
    rw [ho] at h hsuffix hbetween
    obtain ⟨rfl, rfl⟩ := Verdict.matched.inj h
    exact ⟨(drop_of_run_suffix hsuffix).2, Nat.sub_le _ _, hbetween⟩

/-- A mismatch points at an operator that can fail, behind where the match starts, and at a byte of
the data from there on; a match that starts at the end of the data can only point at the end. -/
theorem matchUsing_mismatched {bounds : Bounds} {pattern : Bytes} {p d pn e : Nat}
    (h : matchUsing hopAt bounds pattern p data d = .mismatched pn e) :
    min p pattern.length ≤ pn ∧ pn < pattern.length ∧ min d data.size ≤ e ∧
      (if min d data.size = data.size then e = data.size else e < data.size) ∧
      ∃ b, pattern[pn]? = some b ∧ (Op.ofByte b).canFail := by
  have hsuffix := run_suffix hopAt bounds (pattern.drop p) data (min d data.size)
  have hbetween := run_between hopAt bounds (pattern.drop p) (Nat.min_le_right d data.size)
  unfold matchUsing at h
  cases ho : run hopAt bounds (pattern.drop p) data (min d data.size) with
  | reached => rw [ho] at h; cases h
  | ended => rw [ho] at h; cases h
  | failed ps x =>
    obtain ⟨hleft, b, rest, rfl, hfail⟩ := run_failed ho
    rw [ho] at h hsuffix hbetween
    obtain ⟨rfl, rfl⟩ := Verdict.mismatched.inj h
    rw [Outcome.place] at hsuffix
    obtain ⟨hdrop, hstart⟩ := drop_of_run_suffix hsuffix
    have hlength := (hsuffix.trans (List.drop_suffix p pattern)).length_le
    rw [List.length_cons] at hlength
    refine ⟨hstart, ?_, hbetween.1, ?_, b, ?_, hfail⟩
    · rw [List.length_cons]
      omega
    · split
      · next hend => exact Nat.le_antisymm hbetween.2 (hend ▸ hbetween.1)
      · next hend => exact hleft.resolve_left hend
    · rw [← List.head?_drop, hdrop]
      rfl

end LinearPattern
