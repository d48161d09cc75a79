import LinearPattern.Proofs.Machine

/-!
# Patterns without boundaries

Only a boundary ends a match from inside of a block.  A pattern is read without one if no byte that
it is read by is a boundary: one behind a backslash is read together with the backslash, and one in
a set with the set.  Reading on, be it behind a block, an element or an item, comes to no boundary
then (`hasBoundary_afterItem`), and no run ends the match (`Config.outcome_ne_ended`).
-/

namespace LinearPattern

/-- A boundary stands for itself in the pattern, at any depth: it is not escaped, and not part of a
set. -/
def hasBoundary : Bytes → Bool
  | [] => false
  | b :: rest =>
    match Op.ofByte b with
    | .boundary => true
    | .escape => hasBoundary (rest.drop 1)
    | .set => hasBoundary (afterSet rest)
    | _ => hasBoundary rest
termination_by ps => ps.length
decreasing_by
  all_goals
    have := (afterSet_suffix rest).length_le
    simp only [List.length_cons, List.length_drop]
    omega

section

variable {b : UInt8} {rest ps : Bytes}

theorem hasBoundary_escape (h : Op.ofByte b = .escape) :
    hasBoundary (b :: rest) = hasBoundary (rest.drop 1) := by
  rw [hasBoundary.eq_def]
  simp only [h]

theorem hasBoundary_set (h : Op.ofByte b = .set) :
    hasBoundary (b :: rest) = hasBoundary (afterSet rest) := by
  rw [hasBoundary.eq_def]
  simp only [h]

theorem hasBoundary_boundary (h : Op.ofByte b = .boundary) : hasBoundary (b :: rest) = true := by
  rw [hasBoundary.eq_def]
  simp only [h]

/-- All other bytes are read one by one. -/
theorem hasBoundary_cons (he : Op.ofByte b ≠ .escape) (hs : Op.ofByte b ≠ .set)
    (hb : Op.ofByte b ≠ .boundary) : hasBoundary (b :: rest) = hasBoundary rest := by
  rw [hasBoundary.eq_def]
  simp only

/-- Nor is there a boundary behind a byte that is read on its own. -/
theorem hasBoundary_tail (he : Op.ofByte b ≠ .escape) (hs : Op.ofByte b ≠ .set)
    (h : hasBoundary (b :: rest) = false) : hasBoundary rest = false := by
  by_cases hb : Op.ofByte b = .boundary
  · rw [hasBoundary_boundary hb] at h
    cases h
  · rwa [hasBoundary_cons he hs hb] at h

/-- Behind the blocks that are open there is no boundary, either. -/
theorem hasBoundary_afterBlock (n : Nat) (h : hasBoundary ps = false) :
    hasBoundary (afterBlock n ps) = false := by
  fun_induction afterBlock n ps with
  | case1 => exact h
  | case2 n b rest hop ih => exact ih (hasBoundary_escape hop ▸ h)
  | case3 n b rest hop ih => exact ih (hasBoundary_set hop ▸ h)
  | case4 n b rest hop ih => exact ih (hasBoundary_tail (by simp [hop]) (by simp [hop]) h)
  | case5 n b rest hop ih => exact ih (hasBoundary_tail (by simp [hop]) (by simp [hop]) h)
  | case6 b rest hop => exact hasBoundary_tail (by simp [hop]) (by simp [hop]) h
  | case7 b rest hop n ih => exact ih (hasBoundary_tail (by simp [hop]) (by simp [hop]) h)
  | case8 n b rest he hs hg ho hc ih => exact ih (hasBoundary_tail he hs h)

theorem hasBoundary_afterElement (h : hasBoundary (b :: rest) = false) :
    hasBoundary (afterElement b rest) = false := by
  unfold afterElement
  split
  · next hop => exact hasBoundary_escape hop ▸ h
  · next hop => exact hasBoundary_set hop ▸ h
  · next hop =>
    exact hasBoundary_afterBlock 0 (hasBoundary_tail (by simp [hop]) (by simp [hop]) h)
  · next hop =>
    exact hasBoundary_afterBlock 0 (hasBoundary_tail (by simp [hop]) (by simp [hop]) h)
  · next he hs _ _ => exact hasBoundary_tail he hs h

/-- A run of `+` or of `~` may be passed over. -/
theorem hasBoundary_afterRun {x : UInt8} (hx : Op.ofByte x = .plus ∨ Op.ofByte x = .scan)
    (h : hasBoundary ps = false) : hasBoundary (afterRun x ps) = false := by
  have hread : Op.ofByte x ≠ .escape ∧ Op.ofByte x ≠ .set := by
    rcases hx with hx | hx <;> simp [hx]
  induction ps with
  | nil => exact h
  | cons b ps ih =>
    by_cases hb : b = x
    · subst hb
      rw [afterRun_cons_self]
      exact ih (hasBoundary_tail hread.1 hread.2 h)
    · rwa [afterRun_of_head?_ne (by simpa using hb)]

theorem hasBoundary_afterItem (h : hasBoundary (b :: rest) = false) :
    hasBoundary (afterItem b rest) = false :=
  hasBoundary_afterRun (.inl rfl) (hasBoundary_afterElement h)

end

variable {hopAt : Bytes → Option Hop} {data : Array UInt8}

namespace Config

/-- A step comes to no boundary. -/
theorem Step.hasBoundary_eq_false {c c' : Config} (h : Step hopAt data c c')
    (hb : hasBoundary c.place = false) : hasBoundary c'.place = false := by
  cases h with
  | boundary h => exact hasBoundary_tail (by simp [h]) (by simp [h]) hb
  | plus h => exact hasBoundary_tail (by simp [h]) (by simp [h]) hb
  | scanNothing h =>
    exact hasBoundary_afterRun (.inr rfl) (hasBoundary_tail (by simp [h]) (by simp [h]) hb)
  | scan h =>
    exact hasBoundary_afterRun (.inr rfl) (hasBoundary_tail (by simp [h]) (by simp [h]) hb)
  | item h => exact hasBoundary_afterItem hb

/-- Where there is no boundary, no run ends the match. -/
theorem outcome_ne_ended (c : Config) (hb : hasBoundary c.place = false) (qs : Bytes) (e : Nat) :
    c.outcome hopAt data ≠ .ended qs e := by
  induction c using induction with
  | h c ih =>
    rcases c.step_or_stop hopAt data with ⟨c', h⟩ | ⟨o, h⟩
    · rw [h.outcome_eq]
      exact ih c' h.length_lt (h.hasBoundary_eq_false hb)
    · rw [h.outcome_eq]
      rintro rfl
      cases h with
      | boundary h =>
        rw [hasBoundary_boundary h] at hb
        cases hb
      | @ended room start b rest d ops _ _ h hd ho hi =>
        obtain ⟨x, helement⟩ := item_ended hi
        obtain ⟨hop, hbody⟩ := element_ended helement
        cases room with
        | zero => cases hbody
        | succ inner =>
          have hinside : hasBoundary rest = false := by
            rcases hop with hop | hop
            · exact hasBoundary_tail (by simp [hop]) (by simp [hop]) hb
            · exact hasBoundary_tail (by simp [hop]) (by simp [hop]) hb
          exact ih ⟨inner, true, rest, x, none⟩ (Nat.lt_succ_self _) hinside hbody

end Config

end LinearPattern
