import LinearPattern.Proofs.Verdict

/-!
# Groups pass a failure on, options absorb it

A group or an option with no `+` behind it is one item, and what its inner block comes to, run on
its own with one block less to enter, decides what the item comes to (`matchFrom_inner`).

* Where the inner block matches, so does the item, and it takes the same data.
* Where the inner block fails, a group fails with it, at the same operator and the same byte, and an
  option matches nothing and is left at its end.

A match with a budget of one item has nothing to spend behind the block.  It still reads a close or
a boundary there, and nothing else (`verdict_block_spent`).
-/

namespace LinearPattern

/-- The operators that are read also when nothing is left of the budget. -/
def Op.isFree : Op → Bool
  | .close => true
  | .boundary => true
  | _ => false

theorem Op.isFree_eq_false {op : Op} (hc : op ≠ .close) (hb : op ≠ .boundary) :
    op.isFree = false := by
  cases op <;> simp_all [isFree]

/-- Where a block stops that comes to the position `e` with nothing left of its budget: behind a
close or a boundary, and otherwise right there. -/
def spentPos (pattern : Bytes) (e : Nat) : Nat :=
  if (pattern[e]?).any fun b => (Op.ofByte b).isFree then e + 1 else e

section

variable {hopAt : Bytes → Option Hop} {data : Array UInt8} {room : Nat} {b : UInt8} {rest : Bytes}
  {d : Nat}

/-- With nothing left of its budget, a block reads one close or boundary, or nothing. -/
theorem verdict_block_spent (pattern : Bytes) {e : Nat} (he : e ≤ pattern.length) :
    (block hopAt data room false (pattern.drop e) d (some 0)).verdict pattern =
      .matched (spentPos pattern e) d := by
  have hget : pattern[e]? = (pattern.drop e).head? := (List.head?_drop).symm
  have hlength : (pattern.drop e).length = pattern.length - e := List.length_drop
  unfold spentPos
  rw [hget]
  generalize pattern.drop e = ps at hlength
  cases ps with
  | nil =>
    rw [List.length_nil] at hlength
    rw [block_nil, Outcome.verdict, show pattern.length - [].length = e by simp; omega]
    rfl
  | cons b rest =>
    rw [List.length_cons] at hlength
    have hbehind : pattern.length - rest.length = e + 1 := by omega
    by_cases hc : Op.ofByte b = .close
    · rw [block_close hc, Outcome.verdict, hbehind]
      simp [hc, Op.isFree]
    by_cases hb : Op.ofByte b = .boundary
    · rw [block_boundary hb, Outcome.verdict, hbehind]
      simp [hb, Op.isFree]
    · rw [block_stop hc hb (.inr rfl), Outcome.verdict]
      have hhere : pattern.length - (rest.length + 1) = e := by omega
      simp [hhere, Op.isFree_eq_false hc hb]

/-- With a budget of one item, a block runs the element that it starts with, and comes to the place
behind it with nothing left to spend. -/
theorem block_one {start : Bool} (h : (Op.ofByte b).startsElement)
    (hplus : (afterElement b rest).head? ≠ some Byte.plus) (hd : d < data.size) :
    block hopAt data room start (b :: rest) d (some 1) =
      match element data (bodyAt hopAt data room b rest) b rest d with
      | .reached _ e => block hopAt data room false (afterElement b rest) e (some 0)
      | .failed qs e => .failed qs e
      | .ended qs e => .ended qs e := by
  rw [block_element h hd (by simp), item_of_head?_ne hplus, afterItem, afterRun_of_head?_ne hplus]
  rfl

/-- With a budget of one item, a block that starts with a group or an option at the position `p`, and
with no `+` behind that, comes to a verdict that the run of the inner block decides. -/
theorem verdict_block_one {pattern : Bytes} {p e : Nat} (hdrop : pattern.drop p = b :: rest)
    (hop : Op.ofByte b = .group ∨ Op.ofByte b = .option) (he : elementEnd pattern p = .ok e)
    (hplus : pattern[e]? ≠ some Byte.plus) (hd : d < data.size) :
    (block hopAt data (room + 1) true (b :: rest) d (some 1)).verdict pattern =
      match block hopAt data room true rest d none with
      | .reached _ x => .matched (spentPos pattern e) x
      | .ended qs x => .matched (pattern.length - qs.length) x
      | .failed qs x =>
        if Op.ofByte b = .group then .mismatched (pattern.length - qs.length) x
        else .matched (spentPos pattern e) d := by
  obtain ⟨hend, hbehind⟩ := elementEnd_eq_ok hdrop he
  have hhead : (afterElement b rest).head? ≠ some Byte.plus := by
    rwa [hbehind, List.head?_drop]
  have hbody : bodyAt hopAt data (room + 1) b rest d = block hopAt data room true rest d none := rfl
  rcases hop with hop | hop
  · rw [block_one (by rw [hop]; rfl) hhead hd, element_group hop, hbody, hbehind]
    cases block hopAt data room true rest d none with
    | reached qs x => exact verdict_block_spent pattern hend
    | ended qs x => rfl
    | failed qs x => exact (if_pos hop).symm
  · rw [block_one (by rw [hop]; rfl) hhead hd, element_option hop, hbody, hbehind]
    cases block hopAt data room true rest d none with
    | reached qs x => exact verdict_block_spent pattern hend
    | ended qs x => rfl
    | failed qs x => exact (verdict_block_spent pattern hend).trans (if_neg (by simp [hop])).symm

end

/-- **Groups pass a failure on, options absorb it.**  A group or an option that no `+` follows, run
with a budget of one item, is compared with its inner block, run on its own with one block less to
enter.  Where the inner block matches, the whole matches and takes the same data.  Where it does
not, a group comes to the same mismatch, and an option matches nothing and is left at its end, or
behind the close or the boundary there. -/
theorem matchFrom_inner {pattern : Bytes} {p e : Nat} {b : UInt8} (hp : pattern[p]? = some b)
    (hb : b = Byte.groupOpen ∨ b = Byte.optionOpen) (he : elementEnd pattern p = .ok e)
    (hplus : pattern[e]? ≠ some Byte.plus) {data : Array UInt8} {d : Nat} (hd : d < data.size)
    (nesting : Nat) :
    let inner := matchFrom { maxOps := none, nesting } pattern (p + 1) data d
    let outer := matchFrom { maxOps := some 1, nesting := nesting + 1 } pattern p data d
    (∀ pn x, inner = .matched pn x → outer.dataEnd? = some x) ∧
    (∀ pn x, inner = .mismatched pn x → b = Byte.groupOpen → outer = inner) ∧
    (∀ pn x, inner = .mismatched pn x → b = Byte.optionOpen →
      outer = .matched (spentPos pattern e) d) := by
  intro inner outer
  have hop : Op.ofByte b = .group ∨ Op.ofByte b = .option := by
    rcases hb with rfl | rfl
    · exact .inl rfl
    · exact .inr rfl
  obtain ⟨hlt, hget⟩ := List.getElem?_eq_some_iff.mp hp
  have hdrop : pattern.drop p = b :: pattern.drop (p + 1) := by
    rw [List.drop_eq_getElem_cons hlt, hget]
  have hinner : inner = (block Hop.of? data nesting true (pattern.drop (p + 1)) d
      none).verdict pattern := matchFrom_of_lt hd
  have houter : outer = (block Hop.of? data (nesting + 1) true (pattern.drop p) d
      (some 1)).verdict pattern := matchFrom_of_lt hd
  rw [hdrop, verdict_block_one hdrop hop he hplus hd] at houter
  cases ho : block Hop.of? data nesting true (pattern.drop (p + 1)) d none with
  | failed qs x =>
    rw [ho] at hinner houter
    refine ⟨?_, ?_, ?_⟩
    · intro pn y h
      cases hinner.symm.trans h
    · rintro - - - rfl
      exact houter.trans hinner.symm
    · rintro - - - rfl
      exact houter
  | _ =>
    -- the inner block matches, so there is nothing to say of a mismatch
    rw [ho] at hinner houter
    refine ⟨?_, fun pn y h => ?_, fun pn y h => ?_⟩
    · intro pn y h
      obtain ⟨-, rfl⟩ := Verdict.matched.inj (hinner.symm.trans h)
      rw [houter]
      rfl
    · cases hinner.symm.trans h
    · cases hinner.symm.trans h

/-- `([a~b]+c)]` on `axbd`: the inner block fails at the `c` behind the option, and so does the
group.  As an option, `[[a~b]+c])`, the whole matches nothing, and is left behind the close that
follows it. -/
theorem matchFrom_inner_repeated :
    let group : Bytes := [40, 91, 97, 126, 98, 93, 43, 99, 41, 93]
    let option : Bytes := [91, 91, 97, 126, 98, 93, 43, 99, 93, 41]
    let data : Array UInt8 := #[97, 120, 98, 100]
    (group[0]? = some Byte.groupOpen ∧ elementEnd group 0 = .ok 9 ∧
      group[9]? ≠ some Byte.plus ∧ 0 < data.size ∧
      matchFrom { maxOps := none, nesting := 1 } group 1 data 0 = .mismatched 7 3 ∧
      matchFrom { maxOps := some 1, nesting := 2 } group 0 data 0 = .mismatched 7 3) ∧
    (option[0]? = some Byte.optionOpen ∧ elementEnd option 0 = .ok 9 ∧
      option[9]? ≠ some Byte.plus ∧
      matchFrom { maxOps := some 1, nesting := 2 } option 0 data 0 = .matched 10 0) := by
  intro group option data
  have hgroupEnd : elementEnd group 0 = .ok 9 := by cbv
  have hoptionEnd : elementEnd option 0 = .ok 9 := by cbv
  have hgroup : matchFrom { maxOps := none, nesting := 1 } group 1 data 0 = .mismatched 7 3 := by
    decide +kernel
  have hoption : matchFrom { maxOps := none, nesting := 1 } option 1 data 0 = .mismatched 7 3 := by
    decide +kernel
  have hgroupOpen : group[0]? = some Byte.groupOpen := rfl
  have hoptionOpen : option[0]? = some Byte.optionOpen := rfl
  have hdata : 0 < data.size := by decide
  have hpropagate := (matchFrom_inner hgroupOpen (.inl rfl) hgroupEnd (by decide) hdata 1).2.1 7 3
    hgroup rfl
  have habsorb := (matchFrom_inner hoptionOpen (.inr rfl) hoptionEnd (by decide) hdata 1).2.2 7 3
    hoption rfl
  exact ⟨⟨hgroupOpen, hgroupEnd, by decide, hdata, hgroup, hpropagate.trans hgroup⟩,
    hoptionOpen, hoptionEnd, by decide, habsorb⟩

end LinearPattern
