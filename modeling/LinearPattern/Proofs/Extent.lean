import LinearPattern.Pattern.Extent

/-!
# Blocks and the elements in them

The end of a block does not change while its items are read one after another: passing over an
element, or over a run of `+` or `~`, leaves the end of the block where it is
(`afterBlock_afterElement`, `afterBlock_afterRun`, `afterBlock_afterItem`).  Leaving several blocks
is leaving one after the other (`afterBlock_add`).  The position behind an element is the one of
the place there (`elementEnd_eq_ok`).
-/

namespace LinearPattern

/-! ### Operator bytes -/

theorem Op.ofByte_eq_scan {b : UInt8} (h : Op.ofByte b = .scan) : b = Byte.scan := by
  unfold ofByte at h
  split at h <;> cases h
  rfl

theorem Op.ofByte_eq_plus {b : UInt8} (h : Op.ofByte b = .plus) : b = Byte.plus := by
  unfold ofByte at h
  split at h <;> cases h
  rfl

theorem Op.ofByte_eq_escape {b : UInt8} (h : Op.ofByte b = .escape) : b = Byte.escape := by
  unfold ofByte at h
  split at h <;> cases h
  rfl

theorem Op.ofByte_eq_set {b : UInt8} (h : Op.ofByte b = .set) : b = Byte.setOpen := by
  unfold ofByte at h
  split at h <;> cases h
  rfl

theorem Op.ofByte_eq_group {b : UInt8} (h : Op.ofByte b = .group) : b = Byte.groupOpen := by
  unfold ofByte at h
  split at h <;> cases h
  rfl

theorem Op.ofByte_eq_option {b : UInt8} (h : Op.ofByte b = .option) : b = Byte.optionOpen := by
  unfold ofByte at h
  split at h <;> cases h
  rfl

theorem Op.ofByte_eq_boundary {b : UInt8} (h : Op.ofByte b = .boundary) : b = Byte.boundary := by
  unfold ofByte at h
  split at h <;> cases h
  rfl

/-- An operator that opens a block is read on its own. -/
theorem Op.ne_of_opens {op : Op} (h : op = .group ∨ op = .option) : op ≠ .escape ∧ op ≠ .set := by
  rcases h with rfl | rfl <;> simp

/-! ### Sets -/

/-- `afterSet?` with one equation for every byte. -/
theorem afterSet?_cons (b : UInt8) (rest : Bytes) :
    afterSet? (b :: rest) =
      if b == Byte.setClose then some rest
      else if Byte.takesOperand b then afterSet? (rest.drop 1)
      else afterSet? rest := by
  cases rest with
  | nil => simp [afterSet?]
  | cons x rest => rw [afterSet?, List.drop_succ_cons, List.drop_zero]

theorem afterSet_of_some {body rest : Bytes} (h : afterSet? body = some rest) :
    afterSet body = rest := by
  rw [afterSet, h, Option.getD_some]

/-! ### Runs of one byte -/

theorem afterRun_replicate (b : UInt8) (n : Nat) (ps : Bytes) :
    afterRun b (List.replicate n b ++ ps) = afterRun b ps := by
  unfold afterRun
  exact List.dropWhile_append_of_pos fun x hx => beq_iff_eq.mpr (List.eq_of_mem_replicate hx)

theorem afterRun_cons_self (b : UInt8) (ps : Bytes) : afterRun b (b :: ps) = afterRun b ps :=
  afterRun_replicate b 1 ps

theorem afterRun_of_head?_ne {b : UInt8} {ps : Bytes} (h : ps.head? ≠ some b) :
    afterRun b ps = ps := by
  cases ps with
  | nil => rfl
  | cons x ps => rw [afterRun, List.dropWhile_cons, if_neg (by simpa using h)]

/-- A run of one byte is passed over as far as it goes. -/
theorem exists_replicate_append (b : UInt8) (ps : Bytes) :
    ∃ n, ps = List.replicate n b ++ afterRun b ps := by
  induction ps with
  | nil => exact ⟨0, rfl⟩
  | cons x ps ih =>
    by_cases hx : x = b
    · subst hx
      obtain ⟨n, hn⟩ := ih
      exact ⟨n + 1, by rw [afterRun_cons_self, List.replicate_succ, List.cons_append, ← hn]⟩
    · exact ⟨0, (afterRun_of_head?_ne (by simpa using hx)).symm⟩

/-! ### Blocks -/

section

variable (n : Nat) {b : UInt8} {rest : Bytes}

theorem afterBlock_escape (h : Op.ofByte b = .escape) :
    afterBlock n (b :: rest) = afterBlock n (rest.drop 1) := by
  rw [afterBlock.eq_def]
  simp only [h]

theorem afterBlock_set (h : Op.ofByte b = .set) :
    afterBlock n (b :: rest) = afterBlock n (afterSet rest) := by
  rw [afterBlock.eq_def]
  simp only [h]

/-- A block that opens is one more to leave. -/
theorem afterBlock_enter (h : Op.ofByte b = .group ∨ Op.ofByte b = .option) :
    afterBlock n (b :: rest) = afterBlock (n + 1) rest := by
  rw [afterBlock.eq_def]
  rcases h with h | h
  · simp only [h]
  · simp only [h]

/-- A close ends the innermost block. -/
theorem afterBlock_close (h : Op.ofByte b = .close) : afterBlock 0 (b :: rest) = rest := by
  rw [afterBlock.eq_def]
  simp only [h]

theorem afterBlock_close_succ (h : Op.ofByte b = .close) :
    afterBlock (n + 1) (b :: rest) = afterBlock n rest := by
  rw [afterBlock.eq_def]
  simp only [h]

/-- All other bytes are passed over one by one. -/
theorem afterBlock_plain (he : Op.ofByte b ≠ .escape) (hs : Op.ofByte b ≠ .set)
    (hg : Op.ofByte b ≠ .group) (ho : Op.ofByte b ≠ .option) (hc : Op.ofByte b ≠ .close) :
    afterBlock n (b :: rest) = afterBlock n rest := by
  rw [afterBlock.eq_def]
  simp only

end

/-- To leave `m + n + 1` blocks more is to leave `m` of them, and then `n` more. -/
theorem afterBlock_add (m n : Nat) (ps : Bytes) :
    afterBlock (m + n + 1) ps = afterBlock n (afterBlock m ps) := by
  fun_induction afterBlock m ps with
  | case1 => simp only [afterBlock]
  | case2 m b rest hop ih => rw [afterBlock_escape _ hop, ih]
  | case3 m b rest hop ih => rw [afterBlock_set _ hop, ih]
  | case4 m b rest hop ih =>
    rw [afterBlock_enter _ (.inl hop), ← ih, show m + n + 1 + 1 = m + 1 + n + 1 by omega]
  | case5 m b rest hop ih =>
    rw [afterBlock_enter _ (.inr hop), ← ih, show m + n + 1 + 1 = m + 1 + n + 1 by omega]
  | case6 b rest hop => rw [Nat.zero_add, afterBlock_close_succ _ hop]
  | case7 b rest hop m ih =>
    rw [afterBlock_close_succ _ hop, ← ih, show m + 1 + n = m + n + 1 by omega]
  | case8 m b rest he hs hg ho hc ih => rw [afterBlock_plain _ he hs hg ho hc, ih]

/-- A block that opens is left before the blocks around it. -/
theorem afterBlock_open (n : Nat) {b : UInt8} {rest : Bytes}
    (h : Op.ofByte b = .group ∨ Op.ofByte b = .option) :
    afterBlock n (b :: rest) = afterBlock n (afterBlock 0 rest) := by
  rw [← afterBlock_add, Nat.zero_add, afterBlock_enter n h]

/-- The end of a block is the same in front of an element and behind it. -/
theorem afterBlock_afterElement (n : Nat) {b : UInt8} (rest : Bytes)
    (h : Op.ofByte b ≠ .close) :
    afterBlock n (b :: rest) = afterBlock n (afterElement b rest) := by
  unfold afterElement
  split
  · next hop => exact afterBlock_escape n hop
  · next hop => exact afterBlock_set n hop
  · next hop => exact afterBlock_open n (.inl hop)
  · next hop => exact afterBlock_open n (.inr hop)
  · next he hs hg ho => exact afterBlock_plain n he hs hg ho h

/-- An element that opens a block is passed when the block is left. -/
theorem afterElement_open {b : UInt8} (rest : Bytes)
    (h : Op.ofByte b = .group ∨ Op.ofByte b = .option) :
    afterElement b rest = afterBlock 0 rest := by
  rcases h with h | h
  · simp only [afterElement, h]
  · simp only [afterElement, h]

/-- The items of one byte do not move the end of their block. -/
theorem afterBlock_single (n : Nat) {b : UInt8} (rest : Bytes)
    (h : Op.ofByte b = .boundary ∨ Op.ofByte b = .plus ∨ Op.ofByte b = .scan) :
    afterBlock n (b :: rest) = afterBlock n rest := by
  rcases h with h | h | h <;> exact afterBlock_plain n (by simp [h]) (by simp [h]) (by simp [h])
    (by simp [h]) (by simp [h])

/-- The end of a block is the same in front of a run of one byte and behind it, if that byte is an
item. -/
theorem afterBlock_afterRun (n : Nat) {b : UInt8}
    (h : Op.ofByte b = .boundary ∨ Op.ofByte b = .plus ∨ Op.ofByte b = .scan) (ps : Bytes) :
    afterBlock n ps = afterBlock n (afterRun b ps) := by
  induction ps with
  | nil => rfl
  | cons x ps ih =>
    unfold afterRun
    rw [List.dropWhile_cons]
    split
    · next hx =>
      rw [beq_iff_eq] at hx
      subst hx
      rw [afterBlock_single n ps h]
      exact ih
    · rfl

theorem afterBlock_afterRun_plus (n : Nat) (ps : Bytes) :
    afterBlock n ps = afterBlock n (afterRun Byte.plus ps) :=
  afterBlock_afterRun n (.inr (.inl rfl)) ps

theorem afterBlock_afterRun_scan (n : Nat) (ps : Bytes) :
    afterBlock n ps = afterBlock n (afterRun Byte.scan ps) :=
  afterBlock_afterRun n (.inr (.inr rfl)) ps

/-- The end of a block is the same in front of an item and behind it. -/
theorem afterBlock_afterItem (n : Nat) {b : UInt8} (rest : Bytes) (h : Op.ofByte b ≠ .close) :
    afterBlock n (b :: rest) = afterBlock n (afterItem b rest) := by
  rw [afterBlock_afterElement n rest h, afterBlock_afterRun_plus]
  rfl

/-! ### Positions -/

/-- The end of an element is a position of the pattern, and the place there is the one behind the
element. -/
theorem elementEnd_eq_ok {pattern : Bytes} {p e : Nat} {b : UInt8} {rest : Bytes}
    (hdrop : pattern.drop p = b :: rest) (h : elementEnd pattern p = .ok e) :
    e ≤ pattern.length ∧ afterElement b rest = pattern.drop e := by
  rw [elementEnd, hdrop] at h
  obtain rfl := Except.ok.inj h
  have hsuffix : afterElement b rest <:+ pattern := by
    have hplace : afterElement b rest <:+ pattern.drop p :=
      hdrop ▸ (afterElement_suffix b rest).trans (List.suffix_cons b rest)
    exact hplace.trans (List.drop_suffix p pattern)
  exact ⟨Nat.sub_le _ _, List.suffix_iff_eq_drop.mp hsuffix⟩

end LinearPattern
