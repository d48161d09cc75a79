import LinearPattern.Proofs.Resume

/-!
# Places that do alike

Two places of patterns do alike if the runs from them come to the same kind of outcome at the same
position in the data, and the probes of scans from them fail at the same positions.  The place that
a run comes to is left out of it: a run goes on behind an element or a scan at a place that is found
from the pattern.  So doing alike is a congruence: what starts with the same operator does alike, if
what is behind does (`Alike.cons`, for an element `Alike.element`).

* `Outcome.bare`: an outcome without its place;
* `Alike`: what two places have in common that do alike.

A probe has a budget of one item, so it fails only where its first item fails
(`isFailed_block_spent`).
-/

namespace LinearPattern

/-- The outcome without its place in the pattern. -/
def Outcome.bare : Outcome → Outcome
  | .reached _ d => .reached [] d
  | .failed _ d => .failed [] d
  | .ended _ d => .ended [] d

section

variable {o o' : Outcome} {ps : Bytes} {d : Nat}

theorem Outcome.dataNumber_eq_of_bare (h : o.bare = o'.bare) (pattern pattern' : Bytes) :
    (o.verdict pattern).dataNumber = (o'.verdict pattern').dataNumber := by
  cases o <;> cases o' <;> cases h <;> rfl

theorem Outcome.exists_reached_of_bare (h : (Outcome.reached ps d).bare = o.bare) :
    ∃ qs, o = .reached qs d := by
  cases o <;> cases h
  exact ⟨_, rfl⟩

theorem Outcome.exists_failed_of_bare (h : (Outcome.failed ps d).bare = o.bare) :
    ∃ qs, o = .failed qs d := by
  cases o <;> cases h
  exact ⟨_, rfl⟩

theorem Outcome.exists_ended_of_bare (h : (Outcome.ended ps d).bare = o.bare) :
    ∃ qs, o = .ended qs d := by
  cases o <;> cases h
  exact ⟨_, rfl⟩

end

variable {data : Array UInt8}

/-! ### Elements and items -/

section

variable {body body' : Nat → Outcome} {b : UInt8} {rest rest' : Bytes}

/-- An element comes to the same if it accepts the same bytes and its body comes to the same. -/
theorem element_bare
    (haccepts : ∀ c, accepts (Op.ofByte b) b rest c = accepts (Op.ofByte b) b rest' c)
    {d : Nat} (hbody : Op.ofByte b = .group ∨ Op.ofByte b = .option →
      (body d).bare = (body' d).bare) :
    (element data body b rest d).bare = (element data body' b rest' d).bare := by
  by_cases hg : Op.ofByte b = .group
  · have h := hbody (.inl hg)
    rw [element_group hg, element_group hg]
    cases hd : body d <;> cases hd' : body' d <;> rw [hd, hd'] at h <;> cases h <;> rfl
  by_cases ho : Op.ofByte b = .option
  · have h := hbody (.inr ho)
    rw [element_option ho, element_option ho]
    cases hd : body d <;> cases hd' : body' d <;> rw [hd, hd'] at h <;> cases h <;> rfl
  · rw [element_of_single hg ho, element_of_single hg ho]
    cases data[d]? with
    | none => rfl
    | some c =>
      simp only [haccepts c]
      split
      · rfl
      · rfl

theorem repeated_bare {once once' : Nat → Outcome} (h : ∀ e, (once e).bare = (once' e).bare)
    (after after' : Bytes) (size d : Nat) :
    (repeated once after size d).bare = (repeated once' after' size d).bare := by
  fun_induction repeated once after size d with
  | case1 d hd ps e ho he ih =>
    obtain ⟨qs, ho'⟩ := Outcome.exists_reached_of_bare (ho ▸ h d)
    rw [repeated.eq_1 once', if_pos hd, ho']
    simp only [he, if_true]
    exact ih
  | case2 d hd ps e ho he =>
    obtain ⟨qs, ho'⟩ := Outcome.exists_reached_of_bare (ho ▸ h d)
    rw [repeated.eq_1 once', if_pos hd, ho']
    simp only [he, if_false]
    rfl
  | case3 d hd ps e ho =>
    obtain ⟨qs, ho'⟩ := Outcome.exists_failed_of_bare (ho ▸ h d)
    rw [repeated.eq_1 once', if_pos hd, ho']
    rfl
  | case4 d hd ps e ho =>
    obtain ⟨qs, ho'⟩ := Outcome.exists_ended_of_bare (ho ▸ h d)
    rw [repeated.eq_1 once', if_pos hd, ho']
    rfl
  | case5 d hd =>
    rw [repeated.eq_1 once', if_neg hd]
    rfl

/-- An item comes to the same if its element does, and if both have a `+` behind it or neither. -/
theorem item_bare
    (haccepts : ∀ c, accepts (Op.ofByte b) b rest c = accepts (Op.ofByte b) b rest' c)
    (hbody : Op.ofByte b = .group ∨ Op.ofByte b = .option → ∀ e, (body e).bare = (body' e).bare)
    (hhead : (afterElement b rest).head? = (afterElement b rest').head?) (d : Nat) :
    (item data body b rest d).bare = (item data body' b rest' d).bare := by
  have honce : ∀ e, (element data body b rest e).bare = (element data body' b rest' e).bare :=
    fun e => element_bare haccepts fun hop => hbody hop e
  by_cases hplus : (afterElement b rest).head? = some Byte.plus
  · rw [item_of_head?_eq hplus, item_of_head?_eq (hhead ▸ hplus)]
    have h := honce d
    cases he : element data body b rest d with
    | reached ps e =>
      obtain ⟨qs, he'⟩ := Outcome.exists_reached_of_bare (he ▸ h)
      rw [he']
      exact repeated_bare honce _ _ data.size e
    | failed ps e =>
      obtain ⟨qs, he'⟩ := Outcome.exists_failed_of_bare (he ▸ h)
      rw [he']
      rfl
    | ended ps e =>
      obtain ⟨qs, he'⟩ := Outcome.exists_ended_of_bare (he ▸ h)
      rw [he']
      rfl
  · rw [item_of_head?_ne hplus, item_of_head?_ne (hhead ▸ hplus)]
    exact honce d

end

/-! ### Probes -/

/-- Without a budget a block does not fail. -/
theorem isFailed_block_spent (hopAt : Bytes → Option Hop) (room : Nat) (start : Bool) (ps : Bytes)
    (d : Nat) : (block hopAt data room start ps d (some 0)).isFailed = false := by
  induction ps generalizing start with
  | nil =>
    rw [block_nil]
    rfl
  | cons b rest ih =>
    by_cases hc : Op.ofByte b = .close
    · rw [block_close hc]
      rfl
    by_cases hb : Op.ofByte b = .boundary
    · cases start with
      | true =>
        rw [block_boundary_start hb]
        exact ih false
      | false =>
        rw [block_boundary hb]
        rfl
    · rw [block_stop hc hb (.inr rfl)]
      rfl

/-- Nor does a `+` with no element in front of it. -/
theorem isFailed_probe_plus {hopAt : Bytes → Option Hop} {room : Nat} {start : Bool} {b : UInt8}
    {rest : Bytes} {d : Nat} (hop : Op.ofByte b = .plus) (hd : d < data.size) :
    (block hopAt data room start (b :: rest) d (some 1)).isFailed = false := by
  rw [block_plus hop hd (by simp)]
  exact isFailed_block_spent _ _ _ _ _

/-! ### Places that do alike -/

/-- Runs from both places come to the same kind of outcome at the same position, and probes from
them fail at the same positions.  No scan hops. -/
structure Alike (data : Array UInt8) (ps qs : Bytes) : Prop where
  unlimited : ∀ room start d,
    (block (fun _ => none) data room start ps d none).bare =
      (block (fun _ => none) data room start qs d none).bare
  probe : ∀ room start d,
    (block (fun _ => none) data room start ps d (some 1)).isFailed =
      (block (fun _ => none) data room start qs d (some 1)).isFailed

namespace Alike

variable {ps qs rs : Bytes} {b : UInt8}

theorem refl (ps : Bytes) : Alike data ps ps :=
  ⟨fun _ _ _ => rfl, fun _ _ _ => rfl⟩

theorem trans (h : Alike data ps qs) (h' : Alike data qs rs) : Alike data ps rs :=
  ⟨fun room start d => (h.unlimited room start d).trans (h'.unlimited room start d),
    fun room start d => (h.probe room start d).trans (h'.probe room start d)⟩

theorem close (hop : Op.ofByte b = .close) : Alike data (b :: ps) (b :: qs) := by
  constructor
  · intro room start d
    rw [block_close hop, block_close hop]
    rfl
  · intro room start d
    rw [block_close hop, block_close hop]
    rfl

theorem boundary (hop : Op.ofByte b = .boundary) (h : Alike data ps qs) :
    Alike data (b :: ps) (b :: qs) := by
  constructor
  · intro room start d
    cases start with
    | true =>
      rw [block_boundary_start hop, block_boundary_start hop]
      exact h.unlimited room false d
    | false =>
      rw [block_boundary hop, block_boundary hop]
      rfl
  · intro room start d
    cases start with
    | true =>
      rw [block_boundary_start hop, block_boundary_start hop]
      exact h.probe room false d
    | false =>
      rw [block_boundary hop, block_boundary hop]
      rfl

/-- Operators that try an item, or pass over it, do alike if they do so with data left. -/
theorem of_lt (hc : Op.ofByte b ≠ .close) (hb : Op.ofByte b ≠ .boundary)
    (h : ∀ room start d, d < data.size →
      (block (fun _ => none) data room start (b :: ps) d none).bare =
          (block (fun _ => none) data room start (b :: qs) d none).bare ∧
        (block (fun _ => none) data room start (b :: ps) d (some 1)).isFailed =
          (block (fun _ => none) data room start (b :: qs) d (some 1)).isFailed) :
    Alike data (b :: ps) (b :: qs) := by
  constructor
  · intro room start d
    by_cases hd : d < data.size
    · exact (h room start d hd).1
    · rw [block_stop hc hb (.inl (Nat.le_of_not_lt hd)),
        block_stop hc hb (.inl (Nat.le_of_not_lt hd))]
      rfl
  · intro room start d
    by_cases hd : d < data.size
    · exact (h room start d hd).2
    · rw [block_stop hc hb (.inl (Nat.le_of_not_lt hd)),
        block_stop hc hb (.inl (Nat.le_of_not_lt hd))]
      rfl

/-- A `+` with no element in front of it does nothing but cost an item. -/
theorem plus (hop : Op.ofByte b = .plus) (h : Alike data ps qs) :
    Alike data (b :: ps) (b :: qs) := by
  refine of_lt (by simp [hop]) (by simp [hop]) fun room start d hd => ⟨?_, ?_⟩
  · rw [block_plus hop hd (by simp), block_plus hop hd (by simp)]
    exact h.unlimited room false d
  · rw [isFailed_probe_plus hop hd, isFailed_probe_plus hop hd]

/-- So a second one does nothing at all. -/
theorem plus_plus (hop : Op.ofByte b = .plus) : Alike data (b :: b :: ps) (b :: ps) := by
  refine of_lt (by simp [hop]) (by simp [hop]) fun room start d hd => ⟨?_, ?_⟩
  · rw [block_plus hop hd (by simp), block_start (by simp [hop]) false start]
    rfl
  · rw [isFailed_probe_plus hop hd, isFailed_probe_plus hop hd]

/-- Scans for the same item do alike. -/
theorem scan (hop : Op.ofByte b = .scan)
    (hend : atBlockEnd (afterRun Byte.scan ps) = atBlockEnd (afterRun Byte.scan qs))
    (h : Alike data (afterRun Byte.scan ps) (afterRun Byte.scan qs)) :
    Alike data (b :: ps) (b :: qs) := by
  refine of_lt (by simp [hop]) (by simp [hop]) fun room start d hd => ?_
  have hlocate : locate none data (probeAt (fun _ => none) data room (afterRun Byte.scan ps)) d =
      locate none data (probeAt (fun _ => none) data room (afterRun Byte.scan qs)) d :=
    locate_congr fun e _ _ => h.probe room true e
  have hspent : ∀ qs' e, (block (fun _ => none) data room false qs' e (spend (some 1))).isFailed =
      false := fun qs' e => isFailed_block_spent _ _ _ _ _
  constructor
  · rw [block_scan_probe hop hd (by simp), block_scan_probe hop hd (by simp), hend, hlocate]
    split
    · exact h.unlimited room false d
    · split
      · rfl
      · exact h.unlimited room false _
  · rw [block_scan_probe hop hd (by simp), block_scan_probe hop hd (by simp), hend, hlocate]
    split
    · rw [hspent, hspent]
    · split
      · rfl
      · rw [hspent, hspent]

/-- Items do alike that try the same and go on alike. -/
theorem element (hop : (Op.ofByte b).startsElement)
    (haccepts : ∀ c, accepts (Op.ofByte b) b ps c = accepts (Op.ofByte b) b qs c)
    (hbody : Op.ofByte b = .group ∨ Op.ofByte b = .option → Alike data ps qs)
    (hhead : (afterElement b ps).head? = (afterElement b qs).head?)
    (hafter : Alike data (afterItem b ps) (afterItem b qs)) :
    Alike data (b :: ps) (b :: qs) := by
  obtain ⟨hc, hb, -, -⟩ := Op.startsElement_eq_true.mp hop
  refine of_lt hc hb fun room start d hd => ?_
  have hinside : Op.ofByte b = .group ∨ Op.ofByte b = .option → ∀ e,
      (bodyAt (fun _ => none) data room b ps e).bare =
        (bodyAt (fun _ => none) data room b qs e).bare := by
    intro hblock e
    cases room with
    | zero => rfl
    | succ inner => exact (hbody hblock).unlimited inner true e
  have hitem : (item data (bodyAt (fun _ => none) data room b ps) b ps d).bare =
      (item data (bodyAt (fun _ => none) data room b qs) b qs d).bare :=
    item_bare haccepts hinside hhead d
  rw [block_element hop hd (by simp), block_element hop hd (by simp),
    block_element hop hd (by simp), block_element hop hd (by simp)]
  cases hi : item data (bodyAt (fun _ => none) data room b ps) b ps d with
  | reached rs e =>
    obtain ⟨rs', hi'⟩ := Outcome.exists_reached_of_bare (hi ▸ hitem)
    rw [hi']
    refine ⟨hafter.unlimited room false e, ?_⟩
    exact (isFailed_block_spent _ _ _ _ _).trans (isFailed_block_spent _ _ _ _ _).symm
  | failed rs e =>
    obtain ⟨rs', hi'⟩ := Outcome.exists_failed_of_bare (hi ▸ hitem)
    rw [hi']
    exact ⟨rfl, rfl⟩
  | ended rs e =>
    obtain ⟨rs', hi'⟩ := Outcome.exists_ended_of_bare (hi ▸ hitem)
    rw [hi']
    exact ⟨rfl, rfl⟩

end Alike

end LinearPattern
