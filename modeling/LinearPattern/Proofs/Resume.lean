import LinearPattern.Proofs.Verdict

/-!
# Running with a budget, and going on

A block that runs with a budget of `n` items takes the same steps as one that has more, up to the
item that it has no budget for (`Config.outcome_budget`).  Whatever ends a block looks at the
pattern and the data before it looks at the budget, so a block that the budget ends stands in front
of an item, and in front of a byte of the data: it can be started again right there, as a block of
its own, with what there is more to spend.  For whole matches this is `matchFrom_resume`.
-/

namespace LinearPattern

/-- A budget of `n` items and `more` on top of it. -/
def extend (n : Nat) (more : Option Nat) : Option Nat := more.map (n + ·)

theorem extend_zero (more : Option Nat) : extend 0 more = more := by
  cases more <;> simp [extend]

theorem extend_succ_ne (n : Nat) (more : Option Nat) : extend (n + 1) more ≠ some 0 := by
  cases more <;> simp [extend]

theorem spend_extend_succ (n : Nat) (more : Option Nat) :
    spend (extend (n + 1) more) = extend n more := by
  cases more with
  | none => rfl
  | some m =>
    show some (n + 1 + m - 1) = some (n + m)
    rw [Nat.add_right_comm, Nat.add_sub_cancel]

variable {hopAt : Bytes → Option Hop} {data : Array UInt8}

/-- Where no boundary comes next, nothing depends on whether this is the start of the block. -/
theorem block_start {room : Nat} {b : UInt8} {rest : Bytes} {d : Nat} {ops : Option Nat}
    (hb : Op.ofByte b ≠ .boundary) (start start' : Bool) :
    block hopAt data room start (b :: rest) d ops =
      block hopAt data room start' (b :: rest) d ops := by
  rw [block.eq_def hopAt data room start, block.eq_def hopAt data room start']
  simp only
  generalize Op.ofByte b = op at hb
  cases op with
  | boundary => exact absurd rfl hb
  | _ => rfl

/-- An item comes next, and there is data for it. -/
def Pending (data : Array UInt8) (ps : Bytes) (d : Nat) : Prop :=
  d < data.size ∧ ∃ b rest, ps = b :: rest ∧ Op.ofByte b ≠ .close ∧ Op.ofByte b ≠ .boundary

namespace Config

/-- The same configuration with another budget. -/
def setOps (c : Config) (ops : Option Nat) : Config := { c with ops }

/-- A step is free, or it can be taken with any budget that is not used up and costs one item. -/
theorem Step.budget {c c' : Config} (h : Step hopAt data c c') :
    (c'.ops = c.ops ∧ ∀ ops, Step hopAt data (c.setOps ops) (c'.setOps ops)) ∨
      (c.ops ≠ some 0 ∧ c'.ops = spend c.ops ∧
        ∀ ops, ops ≠ some 0 → Step hopAt data (c.setOps ops) (c'.setOps (spend ops))) := by
  cases h with
  | boundary h => exact .inl ⟨rfl, fun ops => .boundary h⟩
  | plus h hd ho => exact .inr ⟨ho, rfl, fun ops ho' => .plus h hd ho'⟩
  | scanNothing h hd ho ht => exact .inr ⟨ho, rfl, fun ops ho' => .scanNothing h hd ho' ht⟩
  | scan h hd ho ht hl => exact .inr ⟨ho, rfl, fun ops ho' => .scan h hd ho' ht hl⟩
  | item h hd ho hi => exact .inr ⟨ho, rfl, fun ops ho' => .item h hd ho' hi⟩

/-- A block that stops does so with any budget that is not used up, or its own is used up and an
item comes next. -/
theorem Stop.budget {c : Config} {o : Outcome} (h : Stop hopAt data c o) :
    (∀ ops, (c.ops = some 0 ∨ ops ≠ some 0) → Stop hopAt data (c.setOps ops) o) ∨
      (c.ops = some 0 ∧ o = .reached c.place c.pos ∧ Pending data c.place c.pos) := by
  have hleft : ∀ {ops ops' : Option Nat}, ops ≠ some 0 → ops = some 0 ∨ ops' ≠ some 0 →
      ops' ≠ some 0 := fun ho h => h.resolve_left ho
  cases h with
  | nil => exact .inl fun ops _ => .nil
  | close h => exact .inl fun ops _ => .close h
  | boundary h => exact .inl fun ops _ => .boundary h
  | @idle _ _ b rest d _ hc hb h =>
    by_cases hd : data.size ≤ d
    · exact .inl fun ops _ => .idle hc hb (.inl hd)
    · exact .inr ⟨h.resolve_left hd, rfl, Nat.lt_of_not_le hd, b, rest, rfl, hc, hb⟩
  | scan h hd ho ht hl => exact .inl fun ops ho' => .scan h hd (hleft ho ho') ht hl
  | failed h hd ho hi => exact .inl fun ops ho' => .failed h hd (hleft ho ho') hi
  | ended h hd ho hi => exact .inl fun ops ho' => .ended h hd (hleft ho ho') hi

/-- A block with a budget of `n` items ends in the same way when it has more, or it stands in front
of an item where it goes on with what it has more. -/
theorem outcome_budget (c : Config) {n : Nat} (hn : c.ops = some n) :
    (∀ more, (c.setOps (extend n more)).outcome hopAt data = c.outcome hopAt data) ∨
      ∃ ps e, c.outcome hopAt data = .reached ps e ∧ Pending data ps e ∧
        ∀ more, (c.setOps (extend n more)).outcome hopAt data =
          block hopAt data c.room true ps e more := by
  revert n hn
  refine c.outcome_rec (motive := fun c o => ∀ {n}, c.ops = some n →
    (∀ more, (c.setOps (extend n more)).outcome hopAt data = o) ∨
      ∃ ps e, o = .reached ps e ∧ Pending data ps e ∧
        ∀ more, (c.setOps (extend n more)).outcome hopAt data =
          block hopAt data c.room true ps e more) ?_ ?_
  · intro c o hstop n hn
    rcases hstop.budget with hany | ⟨hzero, rfl, hpending⟩
    · refine .inl fun more => (hany _ ?_).outcome_eq
      cases n with
      | zero => exact .inl hn
      | succ n => exact .inr (extend_succ_ne n more)
    · -- the budget is used up: what there is more is spent from here on
      obtain ⟨room, start, place, d, ops⟩ := c
      obtain rfl : 0 = n := Option.some.inj (hzero.symm.trans hn)
      refine .inr ⟨place, d, rfl, hpending, fun more => ?_⟩
      obtain ⟨-, b, rest, rfl, -, hb⟩ := hpending
      rw [extend_zero]
      exact block_start hb start true
  · intro c c' o hstep ih n hn
    obtain ⟨k, hk, hsteps⟩ : ∃ k, c'.ops = some k ∧
        ∀ more, Step hopAt data (c.setOps (extend n more)) (c'.setOps (extend k more)) := by
      rcases hstep.budget with ⟨heq, hany⟩ | ⟨hne, hspend, hany⟩
      · exact ⟨n, heq.trans hn, fun more => hany _⟩
      · rw [hn] at hne hspend
        obtain ⟨k, rfl⟩ := Nat.exists_eq_succ_of_ne_zero fun hzero => hne (congrArg some hzero)
        exact ⟨k, hspend, fun more => spend_extend_succ k more ▸ hany _ (extend_succ_ne k more)⟩
    simp only [(hsteps _).outcome_eq, ← hstep.room_eq]
    exact ih hk

end Config

/-! ### Whole matches -/

/-- Where the operator behind a boundary needs data, there is an item, and the boundary is
skipped. -/
theorem block_of_needsData {room : Nat} {ps : Bytes} {d : Nat} {ops : Option Nat}
    (h : needsData (afterBoundary ps)) (ho : data.size ≤ d ∨ ops = some 0) :
    block hopAt data room true ps d ops = .reached (afterBoundary ps) d := by
  have hstop : ∀ (start : Bool) {b : UInt8} {rest : Bytes}, needsData (b :: rest) →
      block hopAt data room start (b :: rest) d ops = .reached (b :: rest) d := by
    intro start b rest hneeds
    refine block_stop ?_ ?_ ho
    · intro hc
      simp [needsData, hc] at hneeds
    · intro hb
      simp [needsData, hb] at hneeds
  cases ps with
  | nil => cases h
  | cons b rest =>
    rw [afterBoundary] at h ⊢
    split
    · next hb =>
      rw [if_pos hb] at h
      rw [block_boundary_start (by rw [beq_iff_eq.mp hb]; rfl)]
      cases rest with
      | nil => cases h
      | cons x rest => exact hstop false h
    · next hb =>
      rw [if_neg hb] at h
      exact hstop true h

/-- With nothing to spend a match that is started at the end of the data stops in front of the item
that needs some, and with anything to spend it fails there. -/
theorem run_at_end {nesting : Nat} {ps : Bytes} (h : needsData (afterBoundary ps))
    (ops : Option Nat) :
    run hopAt ⟨ops, nesting⟩ ps data data.size =
      if ops = some 0 then .reached (afterBoundary ps) data.size
      else .failed (afterBoundary ps) data.size := by
  rw [run]
  by_cases ho : ops = some 0
  · rw [if_neg (fun hguard => hguard.2.1 ho), if_pos ho, block_of_needsData h (.inr ho)]
  · rw [if_pos ⟨rfl, ho, h⟩, if_neg ho]

/-- A match with a budget of `n` items comes to the same when it has more, or it stands at a place
where it goes on with what it has more. -/
theorem run_budget (n nesting : Nat) (ps : Bytes) (d : Nat) :
    (∀ more, run hopAt ⟨extend n more, nesting⟩ ps data d =
        run hopAt ⟨some n, nesting⟩ ps data d) ∨
      ∃ qs e, run hopAt ⟨some n, nesting⟩ ps data d = .reached qs e ∧
        ∀ more, run hopAt ⟨extend n more, nesting⟩ ps data d =
          run hopAt ⟨more, nesting⟩ qs data e := by
  by_cases hguard : d = data.size ∧ needsData (afterBoundary ps)
  · obtain ⟨rfl, hneeds⟩ := hguard
    cases n with
    | zero =>
      refine .inr ⟨afterBoundary ps, data.size, by rw [run_at_end hneeds, if_pos rfl], ?_⟩
      intro more
      have hagain := afterBoundary_of_needsData hneeds
      rw [extend_zero, run_at_end hneeds, run_at_end (by rwa [hagain]), hagain]
    | succ n =>
      refine .inl fun more => ?_
      rw [run_at_end hneeds, run_at_end hneeds, if_neg (extend_succ_ne n more), if_neg (by simp)]
  · have hblock : ∀ ops, run hopAt ⟨ops, nesting⟩ ps data d =
        block hopAt data nesting true ps d ops := fun ops => by
      rw [run, if_neg fun hrun => hguard ⟨hrun.1, hrun.2.2⟩]
    simp only [hblock]
    rcases Config.outcome_budget ⟨nesting, true, ps, d, some n⟩ rfl with hsame | hstand
    · exact .inl hsame
    · obtain ⟨qs, e, hreached, ⟨he, b, rest, rfl, -, hb⟩, hmore⟩ := hstand
      refine .inr ⟨b :: rest, e, hreached, fun more => ?_⟩
      rw [run, if_neg fun hrun => Nat.ne_of_lt he hrun.1]
      exact hmore more

/-- A match that its budget ends is started again where it stands. -/
theorem run_resume {nesting n : Nat} {ps : Bytes} {d : Nat}
    (h : run hopAt ⟨some n, nesting⟩ ps data d ≠ run hopAt ⟨some (n + 1), nesting⟩ ps data d) :
    ∃ qs e, run hopAt ⟨some n, nesting⟩ ps data d = .reached qs e ∧
      ∀ more, run hopAt ⟨extend n more, nesting⟩ ps data d =
        run hopAt ⟨more, nesting⟩ qs data e := by
  rcases run_budget n nesting ps d with hsame | hstand
  · exact absurd (hsame (some 1)).symm h
  · exact hstand

/-- **A match that its budget ends can be resumed.**  If one item more changes the verdict, the
match has stopped in front of that item, and a match from there on with a budget of `m` comes to
what the match comes to with `m` items more, and without a limit to what it comes to without a
limit. -/
theorem matchFrom_resume {nesting n : Nat} {pattern : Bytes} {p : Nat} {data : Array UInt8}
    {d : Nat}
    (h : matchFrom { maxOps := some n, nesting } pattern p data d ≠
      matchFrom { maxOps := some (n + 1), nesting } pattern p data d) :
    ∃ pn e, matchFrom { maxOps := some n, nesting } pattern p data d = .matched pn e ∧
      (∀ m, matchFrom { maxOps := some (n + m), nesting } pattern p data d =
        matchFrom { maxOps := some m, nesting } pattern pn data e) ∧
      matchFrom { maxOps := none, nesting } pattern p data d =
        matchFrom { maxOps := none, nesting } pattern pn data e := by
  have hrun : run Hop.of? ⟨some n, nesting⟩ (pattern.drop p) data (min d data.size) ≠
      run Hop.of? ⟨some (n + 1), nesting⟩ (pattern.drop p) data (min d data.size) :=
    fun heq => h (congrArg (Outcome.verdict pattern) heq)
  obtain ⟨qs, e, hreached, hmore⟩ := run_resume hrun
  have hsuffix := run_suffix Hop.of? ⟨some n, nesting⟩ (pattern.drop p) data (min d data.size)
  have hbetween := run_between Hop.of? ⟨some n, nesting⟩ (pattern.drop p)
    (Nat.min_le_right d data.size)
  rw [hreached] at hsuffix hbetween
  rw [Outcome.place] at hsuffix
  have he : e ≤ data.size := hbetween.2
  -- the place where the match stands is the one at the position that its verdict gives
  have hresume : ∀ more, matchFrom ⟨extend n more, nesting⟩ pattern p data d =
      matchFrom ⟨more, nesting⟩ pattern (pattern.length - qs.length) data e := by
    intro more
    rw [matchFrom, matchFrom, matchUsing, matchUsing, hmore, (drop_of_run_suffix hsuffix).1,
      Nat.min_eq_left he]
  refine ⟨pattern.length - qs.length, e, ?_, fun m => hresume (some m), hresume none⟩
  rw [matchFrom, matchUsing, hreached]
  rfl

/-- `` `(ab)+~c[d]`` on `ababxxcd` with a budget of two items: the match stops behind the scan, in
front of the `c` that the scan has found, and goes on there. -/
theorem matchFrom_resume_scan :
    let pattern : Bytes := [96, 40, 97, 98, 41, 43, 126, 99, 91, 100, 93]
    let data : Array UInt8 := #[97, 98, 97, 98, 120, 120, 99, 100]
    matchFrom { maxOps := some 2, nesting := 1 } pattern 0 data 0 ≠
        matchFrom { maxOps := some 3, nesting := 1 } pattern 0 data 0 ∧
      matchFrom { maxOps := some 2, nesting := 1 } pattern 0 data 0 = .matched 7 6 ∧
      matchFrom { maxOps := none, nesting := 1 } pattern 0 data 0 = .matched 11 8 := by
  intro pattern data
  have hne : matchFrom { maxOps := some 2, nesting := 1 } pattern 0 data 0 ≠
      matchFrom { maxOps := some 3, nesting := 1 } pattern 0 data 0 := by decide +kernel
  have hstop : matchFrom { maxOps := some 2, nesting := 1 } pattern 0 data 0 = .matched 7 6 := by
    decide +kernel
  obtain ⟨pn, e, hmatched, -, hunlimited⟩ := matchFrom_resume hne
  rw [hstop] at hmatched
  obtain ⟨rfl, rfl⟩ := Verdict.matched.inj hmatched
  refine ⟨hne, hstop, ?_⟩
  rw [hunlimited]
  decide +kernel

end LinearPattern
