import LinearPattern.Proofs.Nesting
import LinearPattern.Proofs.Verdict

/-!
# A mismatch is found again

A match reports the operator at which it fails, and the byte that this operator does not match.  The
operator may stand any number of blocks deep, where there is less room, no budget, and a run of the
block before it.  None of that has to do with the failure: run from the operator on and from the
byte on, the match fails at once, and reports the same (`matchFrom_of_mismatched`).

* `FailsAt`: a place and a position at which a block with all the room fails at once;
* `Config.failsAt_of_failed`: whatever a run of an accepted pattern fails at is such a place.

What an option, a repetition or a probe of a scan catches is not reported, so only the operators of
one data byte and the scans are.  The latter probe the item behind them, and may enter blocks for
that: the probes come to the same with more room, as the pattern is accepted.  A pattern that is not
accepted may fail at a group that there is no room for, and then there is room for it if the match
is started there.
-/

namespace LinearPattern

variable {hopAt : Bytes → Option Hop} {data : Array UInt8}

/-- A block with this room fails at once at this place and position, if it may try an item. -/
def FailsAt (hopAt : Bytes → Option Hop) (data : Array UInt8) (room : Nat) (ps : Bytes) (d : Nat) :
    Prop :=
  ∀ start ops, ops ≠ some 0 → block hopAt data room start ps d ops = .failed ps d

namespace Config

variable {limit total : Nat}

/-- With nothing to spend a block does not fail. -/
theorem ops_ne_zero_of_failed (c : Config) (h : (c.outcome hopAt data).isFailed) :
    c.ops ≠ some 0 := by
  revert h
  refine c.outcome_rec (motive := fun c o => o.isFailed → c.ops ≠ some 0) ?_ ?_
  · intro c o hstop
    cases hstop with
    | scan _ _ ho => exact fun _ => ho
    | failed _ _ ho => exact fun _ => ho
    | _ => exact nofun
  · intro c c' o hstep ih
    cases hstep with
    | boundary => exact ih
    | plus _ _ ho => exact fun _ => ho
    | scanNothing _ _ ho => exact fun _ => ho
    | scan _ _ ho => exact fun _ => ho
    | item _ _ ho => exact fun _ => ho

/-- An accepted run comes to the same with all the room. -/
theorem Accepted.outcome_setRoom {c : Config} (ha : c.Accepted limit total) (hroom : c.room ≤ limit) :
    (c.setRoom limit).outcome hopAt data = c.outcome hopAt data := by
  obtain ⟨more, rfl⟩ := Nat.exists_eq_add_of_le hroom
  exact c.outcome_moreRoom more fun c' hr => (ha.reach hr).not_refused

/-- A scan that finds nothing in an accepted block finds nothing with all the room. -/
theorem failsAt_of_scan {room : Nat} {start : Bool} {b : UInt8} {rest : Bytes} {d : Nat}
    {ops : Option Nat} (ha : (Config.mk room start (b :: rest) d ops).Accepted limit total)
    (hroom : room ≤ limit) (h : Op.ofByte b = .scan) (hd : d < data.size) (ho : ops ≠ some 0)
    (ht : ¬atBlockEnd (afterRun Byte.scan rest))
    (hl : locate (hopAt (afterRun Byte.scan rest)) data
      (probeAt hopAt data room (afterRun Byte.scan rest)) d = none) :
    FailsAt hopAt data limit (b :: rest) d := by
  have hprobe : ∀ e, d ≤ e → e < data.size →
      probeAt hopAt data limit (afterRun Byte.scan rest) e =
        probeAt hopAt data room (afterRun Byte.scan rest) e := by
    intro e hle he
    exact (ha.call (Calls.probe h hd ho ht hle he)).outcome_setRoom hroom
  have hlocate : locate (hopAt (afterRun Byte.scan rest)) data
      (probeAt hopAt data limit (afterRun Byte.scan rest)) d = none := by
    rw [← hl]
    apply locate_congr
    intro e hle he
    rw [hprobe e hle he]
  intro start' ops' ho'
  rw [block_scan_probe h hd ho', if_neg ht, hlocate]

/-- An operator of one data byte that does not match does not do so with other room, either. -/
theorem failsAt_of_single {room : Nat} (room' : Nat) {b : UInt8} {rest : Bytes} {d : Nat}
    (h : (Op.ofByte b).startsElement) (hd : d < data.size) (hg : Op.ofByte b ≠ .group)
    (ho : Op.ofByte b ≠ .option)
    (hi : item data (bodyAt hopAt data room b rest) b rest d = .failed (b :: rest) d) :
    FailsAt hopAt data room' (b :: rest) d := by
  have hfails : item data (bodyAt hopAt data room' b rest) b rest d = .failed (b :: rest) d := by
    rw [← hi]
    exact item_eq_of_single hg ho
  intro start ops hops
  rw [block_element h hd hops, hfails]

/-- What a run of an accepted pattern fails at fails at once with all the room. -/
theorem failsAt_of_failed (c : Config) (ha : c.Accepted limit total) (hroom : c.room ≤ limit)
    {qs : Bytes} {e : Nat} (h : c.outcome hopAt data = .failed qs e) :
    FailsAt hopAt data limit qs e := by
  induction c using induction with
  | h c ih =>
    rcases c.step_or_stop hopAt data with ⟨c', hs⟩ | ⟨o, hs⟩
    · apply ih c' hs.length_lt (ha.step hs)
      · rw [hs.room_eq]
        exact hroom
      · rw [← hs.outcome_eq]
        exact h
    · rw [hs.outcome_eq] at h
      subst h
      cases hs with
      | scan h hd ho ht hl => exact failsAt_of_scan ha hroom h hd ho ht hl
      | @failed room start b rest d ops _ _ h hd ho hi =>
        rcases element_failed (item_eq_failed_iff.mp hi) with ⟨hg, hbody⟩ | ⟨rfl, rfl, hg, hn⟩
        · cases room with
          | zero =>
            have hrefused : Refused data ⟨0, start, b :: rest, d, ops⟩ :=
              ⟨b, rest, rfl, .inl hg, rfl, hd, ho⟩
            exact absurd hrefused ha.not_refused
          | succ inner =>
            have hcall : Calls data ⟨inner + 1, start, b :: rest, d, ops⟩
                ⟨inner, true, rest, d, none⟩ := .body (.inl hg) hd ho (Nat.le_refl d) hd
            exact ih _ hcall.length_lt (ha.call hcall) (Nat.le_of_succ_le hroom) hbody
        · exact failsAt_of_single limit h hd hg hn hi

end Config

/-! ### Whole matches -/

/-- A match of an accepted pattern that fails, fails again from where it does. -/
theorem run_of_failed {limit : Nat} {pattern qs : Bytes} (hcheck : check limit false pattern = .ok ())
    {maxOps : Option Nat} {d e : Nat}
    (h : run hopAt { maxOps, nesting := limit } pattern data d = .failed qs e) :
    run hopAt { maxOps, nesting := limit } qs data e = .failed qs e := by
  unfold run at h
  split at h
  · next hguard =>
    -- the match has been started at the end of the data
    obtain ⟨rfl, rfl⟩ := Outcome.failed.inj h
    obtain ⟨rfl, hops, hneeds⟩ := hguard
    have hagain := afterBoundary_of_needsData hneeds
    rw [run, hagain, if_pos ⟨rfl, hops, hneeds⟩]
  · have hc : (Config.mk limit true pattern d maxOps).outcome hopAt data = .failed qs e := h
    have hops : maxOps ≠ some 0 := Config.ops_ne_zero_of_failed _ (by rw [hc]; rfl)
    have he : e < data.size := (Config.outcome_failed _ hc).1
    rw [run_of_lt he]
    exact Config.failsAt_of_failed _ (accepted_of_check hcheck (Nat.le_refl limit))
      (Nat.le_refl limit) hc true maxOps hops

/-- **A mismatch is found again.**  Where a match of an accepted pattern comes to a mismatch, a match
with the same bounds from the reported operator on, and from the reported byte on, comes to the same
mismatch. -/
theorem matchFrom_of_mismatched {limit : Nat} {pattern : Bytes}
    (hcheck : check limit false pattern = .ok ()) {maxOps : Option Nat} {data : Array UInt8}
    {d pn e : Nat}
    (h : matchFrom { maxOps, nesting := limit } pattern 0 data d = .mismatched pn e) :
    matchFrom { maxOps, nesting := limit } pattern pn data e = .mismatched pn e := by
  have hsuffix := run_suffix Hop.of? { maxOps, nesting := limit } (pattern.drop 0) data
    (min d data.size)
  have hbetween := run_between Hop.of? { maxOps, nesting := limit } (pattern.drop 0)
    (Nat.min_le_right d data.size)
  rw [matchFrom, matchUsing] at h ⊢
  cases ho : run Hop.of? { maxOps, nesting := limit } (pattern.drop 0) data (min d data.size) with
  | reached => rw [ho] at h; cases h
  | ended => rw [ho] at h; cases h
  | failed qs x =>
    rw [ho] at h hsuffix hbetween
    obtain ⟨rfl, rfl⟩ := Verdict.mismatched.inj h
    have hplace : pattern.drop (pattern.length - qs.length) = qs := (drop_of_run_suffix hsuffix).1
    have hpos : min x data.size = x := Nat.min_eq_left hbetween.2
    rw [hplace, hpos, run_of_failed hcheck ho]
    rfl

/-- `(a[b]{0-9}~(c[d])+e)` on `ab7xyd`: the scan in the group finds no `c`, and the match fails at the
scan.  Started there, outside of the group, it fails again. -/
theorem matchFrom_of_mismatched_nested :
    let pattern : Bytes := [40, 97, 91, 98, 93, 123, 48, 45, 57, 125, 126, 40, 99, 91, 100, 93, 41,
      43, 101, 41]
    let data : Array UInt8 := #[97, 98, 55, 120, 121, 100]
    check 3 false pattern = .ok () ∧
      matchFrom { maxOps := some 1, nesting := 3 } pattern 0 data 0 = .mismatched 10 3 ∧
      matchFrom { maxOps := some 1, nesting := 3 } pattern 10 data 3 = .mismatched 10 3 := by
  intro pattern data
  have hcheck : check 3 false pattern = .ok () := check_eq_ok (by decide +kernel)
  have hmismatch : matchFrom { maxOps := some 1, nesting := 3 } pattern 0 data 0 =
      .mismatched 10 3 := by decide +kernel
  exact ⟨hcheck, hmismatch, matchFrom_of_mismatched hcheck hmismatch⟩

end LinearPattern
