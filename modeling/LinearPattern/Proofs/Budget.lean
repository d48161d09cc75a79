import LinearPattern.Proofs.Resume

/-!
# What a budget leaves of a match

A budget only makes a match shorter.  A match with fewer items either comes to the same verdict as
one with more, or it stops on the way, as a match, in front of where the other one comes to
(`matchFrom_shortens`).  So no budget makes a mismatch of a match.

Every item that is tried reads some of the pattern, so a budget of as many items as there are bytes
left is never used up in front of an item (`Config.outcome_of_length_le`), and comes to the same as
no limit.

* `Verdict.patternPos`, `Verdict.dataPos`: the two positions of a verdict;
* `Verdict.Shortens`: the same verdict, or that of a match that stops earlier;
* `matchFrom_budget`: the ladder of all budgets.
-/

namespace LinearPattern

/-! ### Positions of a verdict -/

/-- The position in the pattern. -/
def Verdict.patternPos : Verdict → Nat
  | .matched pn _ => pn
  | .mismatched pn _ => pn

/-- The position in the data, behind the match or of the mismatch. -/
def Verdict.dataPos : Verdict → Nat
  | .matched _ e => e
  | .mismatched _ e => e

@[simp] theorem Outcome.patternPos_verdict (pattern : Bytes) (o : Outcome) :
    (o.verdict pattern).patternPos = pattern.length - o.place.length := by
  cases o <;> rfl

@[simp] theorem Outcome.dataPos_verdict (pattern : Bytes) (o : Outcome) :
    (o.verdict pattern).dataPos = o.pos := by
  cases o <;> rfl

/-- The same verdict, or that of a match that stops in front of it, both in the pattern and in the
data. -/
def Verdict.Shortens (v w : Verdict) : Prop :=
  v = w ∨ ∃ pn e, v = .matched pn e ∧ pn ≤ w.patternPos ∧ e ≤ w.dataPos

/-- What shortens a match is a match. -/
theorem Verdict.Shortens.exists_matched {v : Verdict} {pn e : Nat}
    (h : v.Shortens (.matched pn e)) : ∃ pn' e', v = .matched pn' e' := by
  rcases h with rfl | ⟨pn', e', rfl, -, -⟩
  · exact ⟨pn, e, rfl⟩
  · exact ⟨pn', e', rfl⟩

/-! ### More items -/

/-- With more items a match goes on from where it stops, and never backwards. -/
theorem matchFrom_shortens (n : Nat) (more : Option Nat) (nesting : Nat) (pattern : Bytes) (p : Nat)
    (data : Array UInt8) (d : Nat) :
    (matchFrom { maxOps := some n, nesting } pattern p data d).Shortens
      (matchFrom { maxOps := extend n more, nesting } pattern p data d) := by
  have hbetween := run_between Hop.of? ⟨some n, nesting⟩ (pattern.drop p)
    (Nat.min_le_right d data.size)
  unfold matchFrom matchUsing
  rcases run_budget n nesting (pattern.drop p) (min d data.size) with hsame | hstand
  · left
    rw [hsame]
  · obtain ⟨qs, e, hreached, hmore⟩ := hstand
    rw [hreached] at hbetween
    have hplace := (run_suffix Hop.of? ⟨more, nesting⟩ qs data e).length_le
    have hpos : e ≤ (run Hop.of? ⟨more, nesting⟩ qs data e).pos :=
      (run_between Hop.of? ⟨more, nesting⟩ qs hbetween.2).1
    rw [hreached, hmore]
    refine .inr ⟨pattern.length - qs.length, e, rfl, ?_, ?_⟩
    · rw [Outcome.patternPos_verdict]
      exact Nat.sub_le_sub_left hplace _
    · rw [Outcome.dataPos_verdict]
      exact hpos

/-! ### Enough items -/

variable {hopAt : Bytes → Option Hop} {data : Array UInt8}

/-- A budget of as many items as there are bytes left of the pattern is as good as no limit. -/
theorem Config.outcome_of_length_le (c : Config) {n : Nat} (hn : c.ops = some n)
    (h : c.place.length ≤ n) :
    (c.setOps none).outcome hopAt data = c.outcome hopAt data := by
  revert n hn h
  refine c.outcome_rec (motive := fun c o => ∀ {n}, c.ops = some n → c.place.length ≤ n →
    (c.setOps none).outcome hopAt data = o) ?_ ?_
  · intro c o hstop n hn h
    rcases hstop.budget with hany | ⟨hzero, -, -, b, rest, hplace, -⟩
    · exact (hany none (.inr (by simp))).outcome_eq
    · -- nothing is left of the budget, but something of the pattern
      rw [hzero] at hn
      obtain rfl := Option.some.inj hn
      simp [hplace] at h
  · intro c c' o hstep ih n hn h
    have hlt := hstep.length_lt
    rcases hstep.budget with ⟨heq, hany⟩ | ⟨-, hspend, hany⟩
    · rw [(hany none).outcome_eq]
      exact ih (heq.trans hn) (by omega)
    · rw [(hany none (by simp)).outcome_eq]
      rw [hn] at hspend
      have hleft : c'.ops = some (n - 1) := hspend
      exact ih hleft (by omega)

/-- A match from a place with no more bytes than its budget comes to what it comes to without a
limit. -/
theorem run_of_length_le {n nesting : Nat} {ps : Bytes} (h : ps.length ≤ n) (d : Nat) :
    run hopAt ⟨some n, nesting⟩ ps data d = run hopAt ⟨none, nesting⟩ ps data d := by
  have hblock : block hopAt data nesting true ps d (some n) =
      block hopAt data nesting true ps d none :=
    (Config.outcome_of_length_le ⟨nesting, true, ps, d, some n⟩ rfl h).symm
  unfold run
  cases ps with
  | nil => simp [afterBoundary, needsData]
  | cons b rest =>
    -- the place is not empty, so there is something to spend at the end of the data
    have hn : some n ≠ some 0 := by
      rintro hzero
      obtain rfl := Option.some.inj hzero
      simp at h
    simp only [hblock, hn, ne_eq, not_false_eq_true, reduceCtorEq, true_and]

/-- **A budget only shortens a match.**  A match with fewer items comes to the same as one with more,
or it is a match that stops in front of it, also where the other one has no limit; and a budget of
as many items as there are bytes of the pattern from the start on is as good as no limit.  So what
is a match without a limit is one with every budget. -/
theorem matchFrom_budget (nesting : Nat) (pattern : Bytes) (p : Nat) (data : Array UInt8) (d : Nat) :
    let within (maxOps : Option Nat) := matchFrom { maxOps, nesting } pattern p data d
    (∀ n m, n ≤ m → (within (some n)).Shortens (within (some m))) ∧
    (∀ n, (within (some n)).Shortens (within none)) ∧
    (∀ n, pattern.length - min p pattern.length ≤ n → within (some n) = within none) ∧
    (∀ pn e, within none = .matched pn e → ∀ n, ∃ pn' e', within (some n) = .matched pn' e') := by
  intro within
  have hlimit : ∀ n, (within (some n)).Shortens (within none) := fun n =>
    matchFrom_shortens n none nesting pattern p data d
  refine ⟨?_, hlimit, ?_, ?_⟩
  · intro n m hle
    obtain ⟨k, rfl⟩ := Nat.exists_eq_add_of_le hle
    exact matchFrom_shortens n (some k) nesting pattern p data d
  · intro n hn
    have hlength : (pattern.drop p).length ≤ n := by
      rw [List.length_drop]
      omega
    exact congrArg (Outcome.verdict pattern) (run_of_length_le hlength (min d data.size))
  · intro pn e hmatched n
    have hshort := hlimit n
    rw [hmatched] at hshort
    exact hshort.exists_matched

/-- ``+[x]~(ab)+c`` on `zabababc`: a stray `+`, an option that is skipped and a scan cost one item
each, and the scan has already moved on to the group when the budget of three is used up.  With as
many items as the pattern has bytes the match is the whole one. -/
theorem matchFrom_budget_scan :
    let pattern : Bytes := [43, 91, 120, 93, 126, 40, 97, 98, 41, 43, 99]
    let data : Array UInt8 := #[122, 97, 98, 97, 98, 97, 98, 99]
    let within (maxOps : Option Nat) := matchFrom { maxOps, nesting := 1 } pattern 0 data 0
    (2 ≤ 3 ∧ (within (some 2)).Shortens (within (some 3)) ∧
      within (some 2) = .matched 4 0 ∧ within (some 3) = .matched 5 1) ∧
    (pattern.length - min 0 pattern.length ≤ 11 ∧ within (some 11) = within none ∧
      within none = .matched 11 8) := by
  intro pattern data within
  obtain ⟨hshort, -, henough, -⟩ := matchFrom_budget 1 pattern 0 data 0
  refine ⟨⟨by decide, hshort 2 3 (by decide), ?_, ?_⟩, by decide, henough 11 (by decide), ?_⟩
  · decide +kernel
  · decide +kernel
  · decide +kernel

end LinearPattern
