import LinearPattern.Match.Verdict
import LinearPattern.Proofs.Machine
import LinearPattern.Proofs.Structure

/-!
# Where a block is left

Behind an inner block a run goes on at the place that `afterBlock` finds in the pattern, wherever
the run of the block itself has stopped.  The two places agree as long as there is data left: no
step moves the end of its block (`Config.Step.afterBlock_eq`), so a block with no limit on its items
that is not cut off by the end of the data is left at its end (`Config.reached_place`), and one that
is cut off stops in front of it.
-/

namespace LinearPattern

variable {hopAt : Bytes → Option Hop} {data : Array UInt8}

/-- A step stays in its block. -/
theorem Config.Step.afterBlock_eq {c c' : Config} (h : Config.Step hopAt data c c') :
    afterBlock 0 c.place = afterBlock 0 c'.place := by
  cases h with
  | boundary h => exact afterBlock_single 0 _ (.inl h)
  | plus h => exact afterBlock_single 0 _ (.inr (.inl h))
  | scanNothing h => rw [afterBlock_single 0 _ (.inr (.inr h)), afterBlock_afterRun_scan]
  | scan h => rw [afterBlock_single 0 _ (.inr (.inr h)), afterBlock_afterRun_scan]
  | item h => exact afterBlock_afterItem 0 _ (Op.startsElement_eq_true.mp h).1

/-- A step from a block with no limit on its items leaves it so. -/
theorem Config.Step.ops_eq_none {c c' : Config} (h : Config.Step hopAt data c c')
    (hops : c.ops = none) : c'.ops = none := by
  cases h with
  | boundary => exact hops
  | _ => exact congrArg spend hops

/-- A block with no limit on its items stops between its start and its end, and at its end if there
is data left. -/
theorem Config.reached_place (c : Config) (hops : c.ops = none) {qs : Bytes} {e : Nat}
    (h : c.outcome hopAt data = .reached qs e) :
    (e < data.size → qs = afterBlock 0 c.place) ∧ afterBlock 0 c.place <:+ qs ∧ qs <:+ c.place := by
  revert hops qs e
  refine c.outcome_rec (motive := fun c o => c.ops = none → ∀ {qs e}, o = .reached qs e →
    (e < data.size → qs = afterBlock 0 c.place) ∧ afterBlock 0 c.place <:+ qs ∧ qs <:+ c.place)
    ?_ ?_
  · intro c o hstop hops qs e ho
    subst ho
    cases hstop with
    | nil =>
      rw [show afterBlock 0 [] = [] by simp only [afterBlock]]
      exact ⟨fun _ => rfl, List.suffix_refl _, List.suffix_refl _⟩
    | @close _ _ b _ _ _ h =>
      rw [afterBlock_close h]
      exact ⟨fun _ => rfl, List.suffix_refl _, List.suffix_cons b qs⟩
    | idle _ _ h =>
      have hend : data.size ≤ e := h.resolve_right (by simp only at hops; simp [hops])
      exact ⟨fun he => absurd he (Nat.not_lt.mpr hend), afterBlock_suffix 0 _, List.suffix_refl _⟩
  · intro c c' o hstep ih hops qs e ho
    obtain ⟨b, rest, hplace, hsuffix⟩ := hstep.suffix
    obtain ⟨hend, hbehind, hbefore⟩ := ih (hstep.ops_eq_none hops) ho
    rw [hstep.afterBlock_eq]
    exact ⟨hend, hbehind, hbefore.trans (hsuffix.trans (hplace ▸ List.suffix_cons b rest))⟩

theorem block_reached {room : Nat} {start : Bool} {ps qs : Bytes} {d e : Nat}
    (h : block hopAt data room start ps d none = .reached qs e) :
    (e < data.size → qs = afterBlock 0 ps) ∧ afterBlock 0 ps <:+ qs ∧ qs <:+ ps :=
  Config.reached_place ⟨room, start, ps, d, none⟩ rfl h

/-- The run of an inner block that there is room for, and that is not cut off by the end of the
data, stops behind the element that the block is. -/
theorem bodyAt_reached {room : Nat} {b : UInt8} {rest qs : Bytes} {d e : Nat}
    (hop : Op.ofByte b = .group ∨ Op.ofByte b = .option)
    (h : bodyAt hopAt data room b rest d = .reached qs e) (he : e < data.size) :
    qs = afterElement b rest := by
  rw [afterElement_open rest hop]
  cases room with
  | zero => cases h
  | succ inner => exact (block_reached h).1 he

/-- A match of a pattern that a strict check accepts reads it to the end, if it leaves data and is
not ended by a boundary. -/
theorem run_reached_of_check {bounds : Bounds} (hops : bounds.maxOps = none) {limit : Nat}
    {pattern qs : Bytes} {d e : Nat} (hcheck : check limit true pattern = .ok ())
    (h : run hopAt bounds pattern data d = .reached qs e) (he : e < data.size) : qs = [] := by
  unfold run at h
  split at h
  · cases h
  · rw [hops] at h
    rw [(block_reached h).1 he]
    exact afterBlock_eq_nil_of_walk hcheck

/-- **A block is left where its end is found in the pattern.**  Run with no limit on its items, a
block stops at its end if there is data left, and otherwise between its start and its end.  So the
place behind a block that has been run is the one behind its element, and a pattern that a strict
check accepts is read to its end by a match that leaves data and is not ended by a boundary. -/
theorem left_at_blockEnd (hopAt : Bytes → Option Hop) (data : Array UInt8) (room : Nat)
    (pattern : Bytes) {p d : Nat} (hp : p ≤ pattern.length) (hd : d ≤ data.size) :
    (∀ qs e, block hopAt data room true (pattern.drop p) d none = .reached qs e →
      e ≤ data.size ∧
      (e < data.size → pattern.length - qs.length = blockEnd pattern p) ∧
      (e = data.size → p ≤ pattern.length - qs.length ∧
        pattern.length - qs.length ≤ blockEnd pattern p)) ∧
    (∀ b rest qs e, pattern.drop p = b :: rest → Op.ofByte b = .group ∨ Op.ofByte b = .option →
      bodyAt hopAt data room b rest d = .reached qs e → e < data.size →
      elementEnd pattern p = .ok (pattern.length - qs.length)) ∧
    (∀ limit qs e, check limit true pattern = .ok () →
      run hopAt { maxOps := none, nesting := room } pattern data d = .reached qs e →
      e < data.size →
      matchUsing hopAt { maxOps := none, nesting := room } pattern 0 data d =
        .matched pattern.length e) := by
  refine ⟨fun qs e h => ?_, fun b rest qs e hdrop hop h he => ?_, fun limit qs e hcheck h he => ?_⟩
  · obtain ⟨hend, hbehind, hbefore⟩ := block_reached h
    have hbetween : (block hopAt data room true (pattern.drop p) d none).Between d data.size :=
      block_between hd
    rw [h] at hbetween
    refine ⟨hbetween.2, fun he => by rw [hend he, blockEnd], fun _ => ?_⟩
    have hbehind := hbehind.length_le
    have hbefore := hbefore.length_le
    rw [List.length_drop] at hbefore
    rw [blockEnd]
    omega
  · rw [elementEnd, hdrop, bodyAt_reached hop h he]
  · rw [matchUsing, List.drop_zero, Nat.min_eq_left hd, h, Outcome.verdict,
      run_reached_of_check rfl hcheck h he]
    rfl

/-- `(a[b{]\}}]c)+d` on `ab]cde`: the group, with a bracket in its set, is left behind its own
parenthesis, and the pattern is read to its end with the last byte of the data left. -/
theorem left_at_blockEnd_nested :
    let pattern : Bytes := [40, 97, 91, 98, 123, 93, 92, 125, 125, 93, 99, 41, 43, 100]
    let data : Array UInt8 := #[97, 98, 93, 99, 100, 101]
    blockEnd pattern 0 = 14 ∧ elementEnd pattern 0 = .ok 12 ∧
      matchFrom { maxOps := none, nesting := 2 } pattern 0 data 0 = .matched 14 5 := by
  intro pattern data
  obtain ⟨hblock, hinner, hmatch⟩ :=
    left_at_blockEnd Hop.of? data 2 pattern (p := 0) (d := 0) (Nat.zero_le _) (Nat.zero_le _)
  refine ⟨?_, ?_, ?_⟩
  · exact ((hblock [] 5 (by decide +kernel)).2.1 (by decide)).symm
  · exact hinner 40 pattern.tail [43, 100] 4 rfl (.inl rfl) (by decide +kernel) (by decide)
  · exact hmatch 2 [] 5 (check_eq_ok (by decide +kernel)) (by decide +kernel) (by decide)

end LinearPattern
