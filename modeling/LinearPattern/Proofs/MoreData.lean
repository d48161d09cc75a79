import LinearPattern.Proofs.Verdict

/-!
# Verdicts under more data

A run that comes to the end of its data stops there and does not fail, whatever is left of the
pattern (`Config.outcome_at_end`).  So a run on the beginning of some data either never looks at
where that beginning ends, and does the same on the whole, or it comes to that end in some inner
block, and then all blocks around it are left there, too (`Outcome.UpTo`).

Scans are excepted: a scan looks for a position as far as there is data, so that it may fail for
want of data only.  Without them, a verdict on the beginning is final unless it is a match that
takes all of it (`matchFrom_moreData`).
-/

namespace LinearPattern

/-- A run on the first `size` bytes has done what the run on all data does, or it has been cut off
by the end of those bytes. -/
def Outcome.UpTo (size : Nat) (o o' : Outcome) : Prop :=
  o = o' ∨ o.isFailed = false ∧ o.pos = size

theorem Outcome.UpTo.eq_of_isFailed {size : Nat} {o o' : Outcome} (h : o.UpTo size o')
    (hfail : o.isFailed) : o = o' := by
  rcases h with h | ⟨hnot, -⟩
  · exact h
  · rw [hfail] at hnot
    cases hnot

theorem Outcome.UpTo.verdict {size : Nat} {o o' : Outcome} (h : o.UpTo size o') {pattern : Bytes} :
    o.verdict pattern = o'.verdict pattern ∨ ∃ pn, o.verdict pattern = .matched pn size := by
  rcases h with heq | ⟨hnot, hpos⟩
  · exact .inl (congrArg (Outcome.verdict pattern) heq)
  · right
    cases o with
    | reached ps e => exact ⟨_, congrArg _ hpos⟩
    | failed ps e => cases hnot
    | ended ps e => exact ⟨_, congrArg _ hpos⟩

variable {hopAt : Bytes → Option Hop} {data : Array UInt8}

/-- A run that comes to the end of the data stops there and does not fail. -/
theorem Config.outcome_at_end (c : Config) (h : c.pos = data.size) :
    (c.outcome hopAt data).isFailed = false ∧ (c.outcome hopAt data).pos = data.size := by
  revert h
  refine c.outcome_rec (motive := fun c o =>
    c.pos = data.size → o.isFailed = false ∧ o.pos = data.size) ?_ ?_
  · intro c o hstop h
    cases hstop with
    | nil => exact ⟨rfl, h⟩
    | close => exact ⟨rfl, h⟩
    | boundary => exact ⟨rfl, h⟩
    | idle => exact ⟨rfl, h⟩
    | scan _ hd => exact absurd h (Nat.ne_of_lt hd)
    | failed _ hd => exact absurd h (Nat.ne_of_lt hd)
    | ended _ hd => exact absurd h (Nat.ne_of_lt hd)
  · intro c c' o hstep ih h
    cases hstep with
    | boundary => exact ih h
    | plus _ hd => exact absurd h (Nat.ne_of_lt hd)
    | scanNothing _ hd => exact absurd h (Nat.ne_of_lt hd)
    | scan _ hd => exact absurd h (Nat.ne_of_lt hd)
    | item _ hd => exact absurd h (Nat.ne_of_lt hd)

/-! ### Elements and items -/

section

variable {body body' : Nat → Outcome} {b : UInt8} {rest : Bytes} {d : Nat}

theorem element_upTo (more : Array UInt8) (hd : d < data.size)
    (h : (body d).UpTo data.size (body' d)) :
    (element data body b rest d).UpTo data.size (element (data ++ more) body' b rest d) := by
  by_cases hg : Op.ofByte b = .group
  · rw [element_group hg, element_group hg]
    rcases h with heq | ⟨hnot, hpos⟩
    · exact .inl (by rw [heq])
    · cases hbody : body d with
      | reached qs e => exact .inr ⟨rfl, by rwa [hbody] at hpos⟩
      | failed qs e => rw [hbody] at hnot; cases hnot
      | ended qs e => exact .inr ⟨rfl, by rwa [hbody] at hpos⟩
  by_cases ho : Op.ofByte b = .option
  · rw [element_option ho, element_option ho]
    rcases h with heq | ⟨hnot, hpos⟩
    · exact .inl (by rw [heq])
    · cases hbody : body d with
      | reached qs e => exact .inr ⟨rfl, by rwa [hbody] at hpos⟩
      | failed qs e => rw [hbody] at hnot; cases hnot
      | ended qs e => exact .inr ⟨rfl, by rwa [hbody] at hpos⟩
  · rw [element_of_single hg ho, element_of_single hg ho, Array.getElem?_append_left hd]
    exact .inl rfl

theorem repeated_upTo {once once' : Nat → Outcome} {after : Bytes} {size size' d : Nat}
    (hsize : size ≤ size') (hd : d ≤ size) (hf : Forward size once)
    (h : ∀ e, e < size → (once e).UpTo size (once' e)) :
    (repeated once after size d).UpTo size (repeated once' after size' d) := by
  fun_induction repeated once after size d with
  | case1 d hlt ps e ho he ih =>
    have hbetween := hf d hlt
    rw [ho] at hbetween
    rcases h d hlt with heq | ⟨-, hpos⟩
    · rw [repeated.eq_1 once' after size' d, if_pos (Nat.lt_of_lt_of_le hlt hsize), ← heq, ho]
      simp only [he, if_true]
      exact ih hbetween.2
    -- this attempt has come to the end, and there is no other one
    · rw [ho] at hpos
      obtain rfl : e = size := hpos
      rw [repeated, if_neg (Nat.lt_irrefl _)]
      exact .inr ⟨rfl, rfl⟩
  | case2 d hlt ps e ho he =>
    rcases h d hlt with heq | ⟨-, hpos⟩
    · rw [repeated, if_pos (Nat.lt_of_lt_of_le hlt hsize), ← heq, ho]
      simp only [he, if_false]
      exact .inl rfl
    · rw [ho] at hpos
      obtain rfl : e = size := hpos
      exact absurd hlt he
  | case3 d hlt ps e ho =>
    rw [repeated, if_pos (Nat.lt_of_lt_of_le hlt hsize),
      ← (h d hlt).eq_of_isFailed (by rw [ho]; rfl), ho]
    exact .inl rfl
  | case4 d hlt ps e ho =>
    rcases h d hlt with heq | ⟨-, hpos⟩
    · rw [repeated, if_pos (Nat.lt_of_lt_of_le hlt hsize), ← heq, ho]
      exact .inl rfl
    · rw [ho] at hpos
      exact .inr ⟨rfl, hpos⟩
  | case5 d hge => exact .inr ⟨rfl, by simp only [Outcome.pos]; omega⟩

theorem item_upTo (more : Array UInt8) (hd : d < data.size) (hf : Forward data.size body)
    (h : ∀ e, e < data.size → (body e).UpTo data.size (body' e)) :
    (item data body b rest d).UpTo data.size (item (data ++ more) body' b rest d) := by
  have hsize : data.size ≤ (data ++ more).size := by rw [Array.size_append]; omega
  have hforward : Forward data.size (element data body b rest) := element_forward hf
  have honce : ∀ e, e < data.size → (element data body b rest e).UpTo data.size
      (element (data ++ more) body' b rest e) := fun e he => element_upTo more he (h e he)
  have hbetween := hforward d hd
  unfold item
  rcases honce d hd with heq | ⟨hnot, hpos⟩
  · rw [← heq]
    cases helement : element data body b rest d with
    | reached ps e =>
      rw [helement] at hbetween
      simp only
      split
      · exact repeated_upTo hsize hbetween.2 hforward honce
      · exact .inl rfl
    | failed ps e => exact .inl rfl
    | ended ps e => exact .inl rfl
  · cases helement : element data body b rest d with
    | reached ps e =>
      rw [helement] at hpos
      obtain rfl : e = data.size := hpos
      simp only
      split
      · rw [repeated, if_neg (Nat.lt_irrefl _)]
        exact .inr ⟨rfl, rfl⟩
      · exact .inr ⟨rfl, rfl⟩
    | failed ps e => rw [helement] at hnot; cases hnot
    | ended ps e => rw [helement] at hpos; exact .inr ⟨rfl, hpos⟩

end

/-! ### Blocks and matches -/

namespace Config

section

variable {c : Config} (more : Array UInt8)

/-- Runs without scans from places shorter than this one do on the beginning of some data what they
do on the whole, or are cut off by the end of the beginning. -/
def UpToBelow (hopAt : Bytes → Option Hop) (data more : Array UInt8) (c : Config) : Prop :=
  ∀ c' : Config, c'.place.length < c.place.length → c'.pos < data.size → Byte.scan ∉ c'.place →
    (c'.outcome hopAt data).UpTo data.size (c'.outcome hopAt (data ++ more))

theorem lt_size_append {d : Nat} (hd : d < data.size) : d < (data ++ more).size := by
  rw [Array.size_append]
  omega

/-- So does the item that comes next. -/
theorem item_bodyAt_upTo (ih : c.UpToBelow hopAt data more) (hd : c.pos < data.size)
    (hscan : Byte.scan ∉ c.place) {b : UInt8} {rest : Bytes} (hplace : c.place = b :: rest) :
    (item data (bodyAt hopAt data c.room b rest) b rest c.pos).UpTo data.size
      (item (data ++ more) (bodyAt hopAt (data ++ more) c.room b rest) b rest c.pos) := by
  refine item_upTo more hd (forward_bodyAt c.room b rest) fun e he => ?_
  cases c.room with
  | zero => exact .inl rfl
  | succ inner =>
    refine ih ⟨inner, true, rest, e, none⟩ ?_ he fun hmem => hscan ?_
    · rw [hplace]
      exact Nat.lt_succ_self _
    · rw [hplace]
      exact List.mem_cons_of_mem b hmem

/-- A step is taken on both sides, and then there is more data left or none. -/
theorem Step.upTo {c' : Config} (h : Step hopAt data c c') (ih : c.UpToBelow hopAt data more)
    (hd : c.pos < data.size) (hscan : Byte.scan ∉ c.place) :
    (c'.outcome hopAt data).UpTo data.size (c.outcome hopAt (data ++ more)) := by
  obtain ⟨b, rest, hplace, hsuffix⟩ := h.suffix
  have hlt := h.length_lt
  have hscan' : Byte.scan ∉ c'.place := fun hmem =>
    hscan (hplace ▸ List.mem_cons_of_mem b (hsuffix.subset hmem))
  cases h with
  | @boundary room b rest d ops h =>
    have hstep : Step hopAt (data ++ more) ⟨room, true, b :: rest, d, ops⟩
        ⟨room, false, rest, d, ops⟩ := .boundary h
    rw [hstep.outcome_eq]
    exact ih _ hlt hd hscan'
  | @plus room start b rest d ops h _ ho =>
    have hstep : Step hopAt (data ++ more) ⟨room, start, b :: rest, d, ops⟩
        ⟨room, false, rest, d, spend ops⟩ := .plus h (lt_size_append more hd) ho
    rw [hstep.outcome_eq]
    exact ih _ hlt hd hscan'
  | scanNothing h => exact absurd (Op.ofByte_eq_scan h ▸ List.mem_cons_self) hscan
  | scan h => exact absurd (Op.ofByte_eq_scan h ▸ List.mem_cons_self) hscan
  | @item room start b rest d ops qs e h _ ho hi =>
    have hcut := item_bodyAt_upTo more ih hd hscan rfl
    have hbetween : (Outcome.reached qs e).Between d data.size :=
      hi ▸ item_between (forward_bodyAt room b rest) hd
    rw [hi] at hcut
    rcases Nat.eq_or_lt_of_le hbetween.2 with hend | hlive
    · exact .inr (outcome_at_end ⟨room, false, afterItem b rest, e, spend _⟩ hend)
    · rcases hcut with heq | ⟨-, hend⟩
      · have hstep : Step hopAt (data ++ more) ⟨room, start, b :: rest, d, ops⟩
            ⟨room, false, afterItem b rest, e, spend ops⟩ :=
          .item h (lt_size_append more hd) ho heq.symm
        rw [hstep.outcome_eq]
        exact ih _ hlt hlive hscan'
      · exact absurd hend (Nat.ne_of_lt hlive)

/-- A block stops on both sides, or it is cut off. -/
theorem Stop.upTo {o : Outcome} (h : Stop hopAt data c o) (ih : c.UpToBelow hopAt data more)
    (hd : c.pos < data.size) (hscan : Byte.scan ∉ c.place) :
    o.UpTo data.size (c.outcome hopAt (data ++ more)) := by
  cases h with
  | nil => exact .inl Stop.nil.outcome_eq.symm
  | close h => exact .inl (Stop.close h).outcome_eq.symm
  | boundary h => exact .inl (Stop.boundary h).outcome_eq.symm
  | idle hc hb h =>
    have ho := h.resolve_left (Nat.not_le.mpr hd)
    exact .inl (Stop.idle hc hb (.inr ho)).outcome_eq.symm
  | scan h => exact absurd (Op.ofByte_eq_scan h ▸ List.mem_cons_self) hscan
  | failed h _ ho hi =>
    have hcut := item_bodyAt_upTo more ih hd hscan rfl
    rw [hi] at hcut
    have heq := hcut.eq_of_isFailed rfl
    exact .inl (Stop.failed h (lt_size_append more hd) ho heq.symm).outcome_eq.symm
  | ended h _ ho hi =>
    have hcut := item_bodyAt_upTo more ih hd hscan rfl
    rw [hi] at hcut
    rcases hcut with heq | hend
    · exact .inl (Stop.ended h (lt_size_append more hd) ho heq.symm).outcome_eq.symm
    · exact .inr hend

end

/-- A block without scans does on the beginning of some data what it does on the whole, or is cut
off by the end of the beginning. -/
theorem outcome_upTo (more : Array UInt8) (c : Config) (hd : c.pos < data.size)
    (hscan : Byte.scan ∉ c.place) :
    (c.outcome hopAt data).UpTo data.size (c.outcome hopAt (data ++ more)) := by
  induction c using induction with
  | h c ih =>
    rcases c.step_or_stop hopAt data with ⟨c', h⟩ | ⟨o, h⟩
    · rw [h.outcome_eq]
      exact h.upTo more ih hd hscan
    · rw [h.outcome_eq]
      exact h.upTo more ih hd hscan

end Config

/-- **Without scans a verdict is final.**  On the beginning of some data a pattern without scans
comes to the same verdict as on the whole, or to a match that takes all of the beginning.  So a
mismatch stays where it is when more data comes. -/
theorem matchFrom_moreData {pattern : Bytes} (hscan : Byte.scan ∉ pattern) {data : Array UInt8}
    {d : Nat} (hd : d < data.size) (bounds : Bounds) (p : Nat) (more : Array UInt8) :
    (matchFrom bounds pattern p data d = matchFrom bounds pattern p (data ++ more) d ∨
        ∃ pn, matchFrom bounds pattern p data d = .matched pn data.size) ∧
      ∀ pn e, matchFrom bounds pattern p data d = .mismatched pn e →
        matchFrom bounds pattern p (data ++ more) d = .mismatched pn e := by
  have hlonger : d < (data ++ more).size := by rw [Array.size_append]; omega
  have hupTo : (block Hop.of? data bounds.nesting true (pattern.drop p) d bounds.maxOps).UpTo
      data.size (block Hop.of? (data ++ more) bounds.nesting true (pattern.drop p) d bounds.maxOps) :=
    Config.outcome_upTo more ⟨bounds.nesting, true, pattern.drop p, d, bounds.maxOps⟩ hd
      fun hmem => hscan (List.mem_of_mem_drop hmem)
  have hverdict : matchFrom bounds pattern p data d = matchFrom bounds pattern p (data ++ more) d ∨
      ∃ pn, matchFrom bounds pattern p data d = .matched pn data.size := by
    rw [matchFrom, matchFrom, matchUsing, matchUsing, Nat.min_eq_left (Nat.le_of_lt hd),
      Nat.min_eq_left (Nat.le_of_lt hlonger), run_of_lt hd, run_of_lt hlonger]
    exact hupTo.verdict
  refine ⟨hverdict, fun pn e h => ?_⟩
  rcases hverdict with heq | ⟨pn', hmatched⟩
  · rw [← heq, h]
  · rw [h] at hmatched
    cases hmatched

/-- `(a[bc])+d` on `abcabx`: the second group is passed without its option, and the match fails at
the second `b`, also when `d` comes behind the `x`. -/
theorem matchFrom_moreData_option :
    let pattern : Bytes := [40, 97, 91, 98, 99, 93, 41, 43, 100]
    let data : Array UInt8 := #[97, 98, 99, 97, 98, 120]
    (Byte.scan ∉ pattern ∧ 0 < data.size) ∧
      matchFrom { maxOps := none, nesting := 2 } pattern 0 (data ++ #[100]) 0 = .mismatched 8 4 := by
  intro pattern data
  have hscan : Byte.scan ∉ pattern := by decide
  have hd : 0 < data.size := by decide
  exact ⟨⟨hscan, hd⟩,
    (matchFrom_moreData hscan hd { maxOps := none, nesting := 2 } 0 #[100]).2 8 4 (by decide +kernel)⟩

end LinearPattern
