import LinearPattern.Match.Run
import LinearPattern.Proofs.Extent
import LinearPattern.Proofs.Hop

/-!
# Elements, items and scans

What holds of elements, items and scans whatever the inner runs are that they try.

* Positions never go backwards and stay in the data if those of the inner runs do
  (`item_between`, `locate_between`).
* The inner runs matter only at the positions where they are tried, which are in the data and not
  behind the position of the item or the scan (`item_congr`, `locate_congr`).
* An item fails only where its element does at the first attempt (`item_eq_failed_iff`).
* A scan finds the first position at which its probe does not fail, with any hop that passes over
  failing probes only (`locate_eq`).
-/

namespace LinearPattern

/-! ### Outcomes -/

namespace Outcome

/-- The position in the data. -/
def pos : Outcome → Nat
  | .reached _ d => d
  | .failed _ d => d
  | .ended _ d => d

/-- The position lies between two others. -/
def Between (low high : Nat) (o : Outcome) : Prop := low ≤ o.pos ∧ o.pos ≤ high

theorem Between.of_le {low low' high : Nat} {o : Outcome} (h : o.Between low high)
    (hl : low' ≤ low) : o.Between low' high :=
  ⟨Nat.le_trans hl h.1, h.2⟩

theorem isFailed_iff {o : Outcome} : o.isFailed = true ↔ ∃ ps d, o = .failed ps d := by
  cases o <;> simp [isFailed]

end Outcome

/-- Runs that go forwards from each position of the data on, and stay in it. -/
def Forward (size : Nat) (body : Nat → Outcome) : Prop :=
  ∀ d, d < size → (body d).Between d size

section

variable {data : Array UInt8} {body body' : Nat → Outcome} {b : UInt8} {rest : Bytes} {d : Nat}

/-! ### Elements -/

/-- An element tries its body at one position only. -/
theorem element_congr (h : body d = body' d) :
    element data body b rest d = element data body' b rest d := by
  unfold element
  rw [h]

theorem element_of_single (hg : Op.ofByte b ≠ .group) (ho : Op.ofByte b ≠ .option) :
    element data body b rest d =
      match data[d]? with
      | none => .failed (b :: rest) d
      | some c =>
        if accepts (Op.ofByte b) b rest c then .reached (afterElement b rest) (d + 1)
        else .failed (b :: rest) d := by
  unfold element
  split
  · next h => exact absurd h hg
  · next h => exact absurd h ho
  · rfl

/-- An element of one data byte has no body to try. -/
theorem element_eq_of_single (hg : Op.ofByte b ≠ .group) (ho : Op.ofByte b ≠ .option) :
    element data body b rest d = element data body' b rest d := by
  rw [element_of_single hg ho, element_of_single hg ho]

theorem element_group (h : Op.ofByte b = .group) :
    element data body b rest d =
      match body d with
      | .reached _ e => .reached (afterElement b rest) e
      | .failed ps e => .failed ps e
      | .ended ps e => .ended ps e := by
  unfold element
  split
  · rfl
  · next hop => exact absurd (h.symm.trans hop) nofun
  · next hop _ => exact absurd h hop

theorem element_option (h : Op.ofByte b = .option) :
    element data body b rest d =
      match body d with
      | .reached _ e => .reached (afterElement b rest) e
      | .failed _ _ => .reached (afterElement b rest) d
      | .ended ps e => .ended ps e := by
  unfold element
  split
  · next hop => exact absurd (h.symm.trans hop) nofun
  · rfl
  · next _ hop => exact absurd h hop

/-- An element that is passed is passed to its end. -/
theorem element_reached {qs : Bytes} {e : Nat} (h : element data body b rest d = .reached qs e) :
    qs = afterElement b rest := by
  unfold element at h
  split at h
  · split at h <;> cases h
    rfl
  · split at h <;> cases h
    · rfl
    · rfl
  · split at h
    · cases h
    · split at h <;> cases h
      rfl

/-- A group fails where its block does, any other element at its own operator, and no option
fails. -/
theorem element_failed {qs : Bytes} {e : Nat} (h : element data body b rest d = .failed qs e) :
    Op.ofByte b = .group ∧ body d = .failed qs e ∨
      qs = b :: rest ∧ e = d ∧ Op.ofByte b ≠ .group ∧ Op.ofByte b ≠ .option := by
  unfold element at h
  split at h
  · next hg =>
    split at h <;> cases h
    exact .inl ⟨hg, by assumption⟩
  · split at h <;> cases h
  · next hg ho =>
    split at h
    · obtain ⟨rfl, rfl⟩ := Outcome.failed.inj h
      exact .inr ⟨rfl, rfl, hg, ho⟩
    · split at h
      · cases h
      · obtain ⟨rfl, rfl⟩ := Outcome.failed.inj h
        exact .inr ⟨rfl, rfl, hg, ho⟩

/-- Only a boundary in its block lets an element end the match. -/
theorem element_ended {qs : Bytes} {e : Nat} (h : element data body b rest d = .ended qs e) :
    (Op.ofByte b = .group ∨ Op.ofByte b = .option) ∧ body d = .ended qs e := by
  unfold element at h
  split at h
  · next hg =>
    split at h <;> cases h
    exact ⟨.inl hg, by assumption⟩
  · next ho =>
    split at h <;> cases h
    exact ⟨.inr ho, by assumption⟩
  · split at h
    · cases h
    · split at h <;> cases h

theorem element_forward (h : Forward data.size body) :
    Forward data.size (element data body b rest) := by
  intro d hd
  have hbody := h d hd
  unfold element
  split
  · cases hb : body d <;> rw [hb] at hbody <;> exact hbody
  · cases hb : body d <;> rw [hb] at hbody
    · exact hbody
    · exact ⟨Nat.le_refl d, Nat.le_of_lt hd⟩
    · exact hbody
  · rw [Array.getElem?_eq_getElem hd]
    simp only
    split
    · exact ⟨Nat.le_succ d, hd⟩
    · exact ⟨Nat.le_refl d, Nat.le_of_lt hd⟩

end

/-! ### Repetitions -/

section

variable {once once' : Nat → Outcome} {after : Bytes} {size d : Nat}

theorem repeated_between (h : Forward size once) (hd : d ≤ size) :
    (repeated once after size d).Between d size := by
  fun_induction repeated once after size d with
  | case1 d hlt ps e ho he ih =>
    have hbetween := ho ▸ h d hlt
    exact (ih hbetween.2).of_le (Nat.le_of_lt he)
  | case2 => exact ⟨Nat.le_refl _, hd⟩
  | case3 => exact ⟨Nat.le_refl _, hd⟩
  | case4 d hlt ps e ho => exact ho ▸ h d hlt
  | case5 => exact ⟨Nat.le_refl _, hd⟩

theorem repeated_congr (h : ∀ e, d ≤ e → e < size → once e = once' e) :
    repeated once after size d = repeated once' after size d := by
  fun_induction repeated once after size d with
  | case1 d hd ps e ho he ih =>
    rw [repeated.eq_1 once' after size d, if_pos hd, ← h d (Nat.le_refl d) hd, ho]
    simp only [he, if_true]
    exact ih fun x hx => h x (Nat.le_trans (Nat.le_of_lt he) hx)
  | case2 d hd ps e ho he =>
    rw [repeated, if_pos hd, ← h d (Nat.le_refl d) hd, ho]
    simp only [he, if_false]
  | case3 d hd ps e ho => rw [repeated, if_pos hd, ← h d (Nat.le_refl d) hd, ho]
  | case4 d hd ps e ho => rw [repeated, if_pos hd, ← h d (Nat.le_refl d) hd, ho]
  | case5 d hd => rw [repeated, if_neg hd]

/-- A repetition goes on behind its `+`. -/
theorem repeated_reached {qs : Bytes} {e : Nat}
    (h : repeated once after size d = .reached qs e) : qs = after := by
  fun_induction repeated once after size d with
  | case1 _ _ _ _ _ _ ih => exact ih h
  | case4 => cases h
  | _ =>
    cases h
    rfl

/-- A repetition that ends the match has an attempt that does. -/
theorem repeated_ended {qs : Bytes} {e : Nat} (h : repeated once after size d = .ended qs e) :
    ∃ x, once x = .ended qs e := by
  fun_induction repeated once after size d with
  | case1 _ _ _ _ _ _ ih => exact ih h
  | case4 x _ _ _ ho =>
    obtain ⟨rfl, rfl⟩ := Outcome.ended.inj h
    exact ⟨x, ho⟩
  | _ => cases h

/-- A repetition never fails. -/
theorem isFailed_repeated (once : Nat → Outcome) (after : Bytes) (size d : Nat) :
    (repeated once after size d).isFailed = false := by
  fun_induction repeated once after size d with
  | case1 _ _ _ _ _ _ ih => exact ih
  | case2 => rfl
  | case3 => rfl
  | case4 => rfl
  | case5 => rfl

end

/-! ### Items -/

section

variable {data : Array UInt8} {body body' : Nat → Outcome} {b : UInt8} {rest : Bytes} {d : Nat}

theorem item_between (h : Forward data.size body) (hd : d < data.size) :
    (item data body b rest d).Between d data.size := by
  have helement : (element data body b rest d).Between d data.size := element_forward h d hd
  unfold item
  cases he : element data body b rest d <;> rw [he] at helement
  · simp only
    split
    · exact (repeated_between (element_forward h) helement.2).of_le helement.1
    · exact helement
  · exact helement
  · exact helement

/-- An item tries its body in the data, from its own position on. -/
theorem item_congr (hf : Forward data.size body) (hd : d < data.size)
    (h : ∀ e, d ≤ e → e < data.size → body e = body' e) :
    item data body b rest d = item data body' b rest d := by
  have helement : (element data body b rest d).Between d data.size := element_forward hf d hd
  unfold item
  rw [← element_congr (h d (Nat.le_refl d) hd)]
  cases he : element data body b rest d with
  | reached ps e =>
    rw [he] at helement
    have hagain : ∀ after, repeated (element data body b rest) after data.size e =
        repeated (element data body' b rest) after data.size e := fun after =>
      repeated_congr fun x hx hxs => element_congr (h x (Nat.le_trans helement.1 hx) hxs)
    simp only [hagain]
  | failed ps e => rfl
  | ended ps e => rfl

/-- With no `+` behind it, an item is its element. -/
theorem item_of_head?_ne (h : (afterElement b rest).head? ≠ some Byte.plus) :
    item data body b rest d = element data body b rest d := by
  unfold item
  cases he : element data body b rest d with
  | reached ps e =>
    obtain rfl := element_reached he
    simp only [h, if_false]
  | failed ps e => rfl
  | ended ps e => rfl

/-- With `+` behind it, an item is its element, repeated from where it ends. -/
theorem item_of_head?_eq (h : (afterElement b rest).head? = some Byte.plus) :
    item data body b rest d =
      match element data body b rest d with
      | .reached _ e => repeated (element data body b rest) (afterItem b rest) data.size e
      | .failed qs e => .failed qs e
      | .ended qs e => .ended qs e := by
  unfold item
  cases he : element data body b rest d with
  | reached ps e =>
    obtain rfl := element_reached he
    simp only [h, if_true]
    rfl
  | failed ps e => rfl
  | ended ps e => rfl

/-- An item that is passed is passed to its end. -/
theorem item_reached {qs : Bytes} {e : Nat} (h : item data body b rest d = .reached qs e) :
    qs = afterItem b rest := by
  unfold item at h
  cases he : element data body b rest d with
  | reached ps x =>
    obtain rfl := element_reached he
    rw [he] at h
    simp only at h
    split at h
    · exact repeated_reached h
    · next hplus =>
      obtain ⟨rfl, rfl⟩ := Outcome.reached.inj h
      exact (afterRun_of_head?_ne hplus).symm
  | failed => rw [he] at h; cases h
  | ended => rw [he] at h; cases h

/-- An item that ends the match has an attempt at its element that does. -/
theorem item_ended {qs : Bytes} {e : Nat} (h : item data body b rest d = .ended qs e) :
    ∃ x, element data body b rest x = .ended qs e := by
  unfold item at h
  cases he : element data body b rest d with
  | reached ps x =>
    rw [he] at h
    simp only at h
    split at h
    · exact repeated_ended h
    · cases h
  | failed => rw [he] at h; cases h
  | ended ps x =>
    rw [he] at h
    obtain ⟨rfl, rfl⟩ := Outcome.ended.inj h
    exact ⟨d, he⟩

theorem item_eq_of_single (hg : Op.ofByte b ≠ .group) (ho : Op.ofByte b ≠ .option) :
    item data body b rest d = item data body' b rest d := by
  have helement : element data body b rest = element data body' b rest :=
    funext fun e => element_eq_of_single hg ho
  rw [item, item, helement]

/-- An item fails where its element does at the first attempt. -/
theorem item_eq_failed_iff {qs : Bytes} {e : Nat} :
    item data body b rest d = .failed qs e ↔ element data body b rest d = .failed qs e := by
  unfold item
  cases h : element data body b rest d with
  | reached ps x =>
    simp only [reduceCtorEq, iff_false]
    split
    · intro hr
      have hfail := isFailed_repeated (element data body b rest) (afterRun Byte.plus ps) data.size x
      rw [hr] at hfail
      cases hfail
    · exact Outcome.noConfusion
  | failed ps x => rfl
  | ended ps x => rfl

end

/-! ### Scans -/

section

variable {hop : Option Hop} {data : Array UInt8} {probe probe' : Nat → Outcome} {d : Nat}

theorem locate_between {e : Nat} (h : locate hop data probe d = some e) :
    d ≤ e ∧ e < data.size := by
  fun_induction locate hop data probe d with
  | case1 d hd e' he _ ih =>
    have hle := le_candidate hop data (Nat.le_of_lt hd)
    have hbetween := ih h
    exact ⟨by omega, hbetween.2⟩
  | case2 d hd e' he _ =>
    obtain rfl := Option.some.inj h
    exact ⟨le_candidate hop data (Nat.le_of_lt hd), he⟩
  | case3 => cases h
  | case4 => cases h

/-- A scan tries its probe in the data, from its own position on. -/
theorem locate_congr (h : ∀ e, d ≤ e → e < data.size → (probe e).isFailed = (probe' e).isFailed) :
    locate hop data probe d = locate hop data probe' d := by
  fun_induction locate hop data probe d with
  | case1 d hd e he hp ih =>
    have hle := le_candidate hop data (Nat.le_of_lt hd)
    rw [locate.eq_1 hop data probe' d, if_pos hd]
    simp only [e] at hp he ih ⊢
    rw [if_pos he, if_pos (h _ hle he ▸ hp)]
    exact ih fun x hx => h x (by omega)
  | case2 d hd e he hp =>
    have hle := le_candidate hop data (Nat.le_of_lt hd)
    rw [locate, if_pos hd]
    simp only [e] at hp he ⊢
    rw [if_pos he, if_neg (h _ hle he ▸ hp)]
  | case3 d hd e he =>
    rw [locate, if_pos hd]
    simp only [e] at he ⊢
    rw [if_neg he]
  | case4 d hd => rw [locate, if_neg hd]

/-- Whether the data at a position lets a hop take it for a candidate. -/
def admits (hop : Option Hop) (data : Array UInt8) (d : Nat) : Bool :=
  match hop with
  | none => true
  | some hop => hop.fits data d

/-- The next candidate is the next position that the hop admits. -/
theorem candidate_eq_firstFrom (hop : Option Hop) (hd : d < data.size) :
    candidate hop data d = firstFrom (admits hop data) data.size d := by
  cases hop with
  | none => exact (firstFrom_of_test hd rfl).symm
  | some hop => exact hop.next_eq_firstFrom data d

/-- The first position from `d` on at which a probe does not fail, if there is one. -/
def firstSuccess (size : Nat) (probe : Nat → Outcome) (d : Nat) : Option Nat :=
  let e := firstFrom (fun x => !(probe x).isFailed) size d
  if e < size then some e else none

theorem firstSuccess_of_le {size : Nat} (h : size ≤ d) : firstSuccess size probe d = none := by
  unfold firstSuccess
  simp only [firstFrom_of_le h, Nat.lt_irrefl, if_false]

theorem firstSuccess_of_success {size : Nat} (hd : d < size) (h : ¬(probe d).isFailed) :
    firstSuccess size probe d = some d := by
  unfold firstSuccess
  rw [firstFrom_of_test hd (by simpa using h)]
  exact if_pos hd

/-- Positions at which the probe fails may be passed over. -/
theorem firstSuccess_skip {size e : Nat} (hde : d ≤ e) (he : e ≤ size)
    (h : ∀ x, d ≤ x → x < e → (probe x).isFailed) :
    firstSuccess size probe d = firstSuccess size probe e := by
  unfold firstSuccess
  rw [firstFrom_skip hde he fun x hx hlt => by rw [h x hx hlt]; rfl]

/-- A scan finds the first position at which its probe does not fail, if its hop passes only over
positions at which the probe fails. -/
theorem locate_eq (h : ∀ e, e < data.size → admits hop data e = false → (probe e).isFailed) :
    locate hop data probe d = firstSuccess data.size probe d := by
  -- what a hop passes over is passed over by the search, too
  have hskip : ∀ d < data.size, firstSuccess data.size probe d =
      firstSuccess data.size probe (candidate hop data d) := by
    intro d hd
    have hc := candidate_eq_firstFrom hop hd
    have hle : candidate hop data d ≤ data.size := hc ▸ firstFrom_le (Nat.le_of_lt hd)
    refine firstSuccess_skip (le_candidate hop data (Nat.le_of_lt hd)) hle fun x hx hlt => ?_
    exact h x (Nat.lt_of_lt_of_le hlt hle) (not_test_of_lt_firstFrom hx (hc ▸ hlt))
  fun_induction locate hop data probe d with
  | case1 d hd e he hp ih =>
    rw [hskip d hd, ih]
    refine (firstSuccess_skip (Nat.le_succ e) he fun x hx hlt => ?_).symm
    obtain rfl : x = e := by omega
    exact hp
  | case2 d hd e he hp => rw [hskip d hd, firstSuccess_of_success he hp]
  | case3 d hd e he => rw [hskip d hd, firstSuccess_of_le (Nat.le_of_not_lt he)]
  | case4 d hd => rw [firstSuccess_of_le (Nat.le_of_not_lt hd)]

/-- A scan that tries every position finds the first one at which its probe does not fail. -/
theorem locate_noHop (probe : Nat → Outcome) (d : Nat) :
    locate none data probe d = firstSuccess data.size probe d :=
  locate_eq nofun

end

end LinearPattern
