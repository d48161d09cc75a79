import LinearPattern.Pattern.Structure
import LinearPattern.Proofs.Extent

/-!
# What the check says about the places of a pattern

A check that accepts a pattern accepts it from every place on that a run comes to, with as many
blocks open there as the run has entered: behind an element (`walk_afterElement`), behind a run of
`~` (`walk_afterRun_scan`), behind an item (`walk_afterItem`), and inside a block, which it has
found within the limit (`walk_inside`).

What a strict check accepts, a lenient one does (`walk_lenient`), and nothing in it closes a block
that is not open (`afterBlock_eq_nil_of_walk`).
-/

namespace LinearPattern

variable {limit : Nat} {strict : Bool} {total : Nat} {opened : List Bytes} {b : UInt8}
  {rest : Bytes}

/-! ### One token -/

theorem walk_escape (h : Op.ofByte b = .escape) :
    walk limit strict total opened (b :: rest) = walk limit strict total opened (rest.drop 1) := by
  rw [walk.eq_def]
  simp only [h]

/-- An open block is one more block, if there may be one more. -/
theorem walk_open (h : Op.ofByte b = .group ∨ Op.ofByte b = .option) :
    walk limit strict total opened (b :: rest) =
      if limit ≤ opened.length then .error (.nestingOver (opened.length + 1) limit)
      else walk limit strict total ((b :: rest) :: opened) rest := by
  rw [walk.eq_def]
  rcases h with h | h
  · simp only [h, true_or, if_true]
  · simp only [h, or_true, if_true]

/-- The bytes with no structure of their own. -/
theorem walk_plain (he : Op.ofByte b ≠ .escape) (hs : Op.ofByte b ≠ .set)
    (hg : Op.ofByte b ≠ .group) (ho : Op.ofByte b ≠ .option) (hc : Op.ofByte b ≠ .close) :
    walk limit strict total opened (b :: rest) = walk limit strict total opened rest := by
  rw [walk.eq_def]
  simp only
  rw [if_neg (not_or.mpr ⟨hg, ho⟩)]

/-- The end of the pattern is accepted where a lenient check is made or nothing is open. -/
theorem walk_nil_eq_ok :
    walk limit strict total opened [] = .ok () ↔ strict = false ∨ opened = [] := by
  rw [walk.eq_def]
  cases opened <;> cases strict <;> simp

/-- What is accepted with a set in front is accepted behind the set. -/
theorem walk_afterSet (h : Op.ofByte b = .set)
    (hw : walk limit strict total opened (b :: rest) = .ok ()) :
    walk limit strict total opened (afterSet rest) = .ok () := by
  rw [walk.eq_def] at hw
  simp only [h] at hw
  cases hs : afterSet? rest with
  | some behind => simpa only [hs] using hw
  | none =>
    simp only [hs] at hw
    rw [afterSet, hs, Option.getD_none, walk_nil_eq_ok]
    cases strict with
    | true => cases hw
    | false => exact .inl rfl

/-- A close that is accepted with a block open ends that block. -/
theorem walk_close {opening : Bytes} (h : Op.ofByte b = .close)
    (hw : walk limit strict total (opening :: opened) (b :: rest) = .ok ()) :
    walk limit strict total opened rest = .ok () := by
  rw [walk.eq_def] at hw
  simp only [h] at hw
  split at hw
  · cases hw
  · exact hw

/-- A lenient check passes over a close with nothing open. -/
theorem walk_stray (h : Op.ofByte b = .close) (hs : strict = false) :
    walk limit strict total [] (b :: rest) = walk limit strict total [] rest := by
  rw [walk.eq_def]
  simp only [h, hs, Bool.false_eq_true, if_false]

/-- A close that a strict check accepts is the one that the block asks for. -/
theorem closes_of_walk {opening : Bytes} (h : Op.ofByte b = .close)
    (hw : walk limit true total (opening :: opened) (b :: rest) = .ok ()) : closes opening b := by
  rw [walk.eq_def] at hw
  cases hc : closes opening b with
  | true => rfl
  | false => simp [h, hc] at hw

/-! ### Behind blocks, elements and items -/

/-- What is accepted inside of `n + 1` blocks is accepted behind them. -/
theorem walk_afterBlock {inner outer : List Bytes} {n : Nat} {ps : Bytes}
    (hn : inner.length = n + 1) (hw : walk limit strict total (inner ++ outer) ps = .ok ()) :
    walk limit strict total outer (afterBlock n ps) = .ok () := by
  -- the innermost block is apart, so that there is one to end at each close
  obtain ⟨opening, inner, rfl⟩ := List.exists_cons_of_length_eq_add_one hn
  rw [List.length_cons, Nat.add_right_cancel_iff] at hn
  fun_induction afterBlock n ps generalizing opening inner with
  | case1 n =>
    rw [walk_nil_eq_ok] at hw ⊢
    exact .inl (hw.resolve_right (List.cons_ne_nil _ _))
  | case2 n b rest hop ih => exact ih opening inner hn (walk_escape hop ▸ hw)
  | case3 n b rest hop ih => exact ih opening inner hn (walk_afterSet hop hw)
  | case4 n b rest hop ih =>
    rw [walk_open (.inl hop)] at hw
    split at hw
    · cases hw
    · exact ih (b :: rest) (opening :: inner) (by rw [List.length_cons, hn]) hw
  | case5 n b rest hop ih =>
    rw [walk_open (.inr hop)] at hw
    split at hw
    · cases hw
    · exact ih (b :: rest) (opening :: inner) (by rw [List.length_cons, hn]) hw
  | case6 b rest hop =>
    obtain rfl := List.length_eq_zero_iff.mp hn
    exact walk_close hop hw
  | case7 b rest hop n ih =>
    obtain ⟨next, inner, rfl⟩ := List.exists_cons_of_length_eq_add_one hn
    exact ih next inner (by simpa using hn) (walk_close hop hw)
  | case8 n b rest he hs hg ho hc ih =>
    rw [List.cons_append, walk_plain he hs hg ho hc] at hw
    exact ih opening inner hn hw

/-- What is accepted inside of a block is accepted behind it. -/
theorem walk_leave {opening ps : Bytes}
    (hw : walk limit strict total (opening :: opened) ps = .ok ()) :
    walk limit strict total opened (afterBlock 0 ps) = .ok () := by
  have hinner : walk limit strict total ([opening] ++ opened) ps = .ok () := hw
  exact walk_afterBlock rfl hinner

/-- A block that is accepted is within the limit, and accepted inside. -/
theorem walk_inside (h : Op.ofByte b = .group ∨ Op.ofByte b = .option)
    (hw : walk limit strict total opened (b :: rest) = .ok ()) :
    opened.length < limit ∧ walk limit strict total ((b :: rest) :: opened) rest = .ok () := by
  rw [walk_open h] at hw
  split at hw
  · cases hw
  · exact ⟨by omega, hw⟩

theorem walk_afterElement (h : Op.ofByte b ≠ .close)
    (hw : walk limit strict total opened (b :: rest) = .ok ()) :
    walk limit strict total opened (afterElement b rest) = .ok () := by
  unfold afterElement
  split
  · next hop => exact walk_escape hop ▸ hw
  · next hop => exact walk_afterSet hop hw
  · next hop => exact walk_leave (walk_inside (.inl hop) hw).2
  · next hop => exact walk_leave (walk_inside (.inr hop) hw).2
  · next he hs hg ho => exact walk_plain he hs hg ho h ▸ hw

/-- What is accepted in front of an item of one byte is accepted behind it. -/
theorem walk_single (h : Op.ofByte b = .boundary ∨ Op.ofByte b = .plus ∨ Op.ofByte b = .scan) :
    walk limit strict total opened (b :: rest) = walk limit strict total opened rest := by
  rcases h with h | h | h <;> exact walk_plain (by simp [h]) (by simp [h]) (by simp [h])
    (by simp [h]) (by simp [h])

/-- What is accepted in front of a run of one byte is accepted behind it, if that byte is an
item. -/
theorem walk_afterRun {x : UInt8}
    (h : Op.ofByte x = .boundary ∨ Op.ofByte x = .plus ∨ Op.ofByte x = .scan) {ps : Bytes}
    (hw : walk limit strict total opened ps = .ok ()) :
    walk limit strict total opened (afterRun x ps) = .ok () := by
  induction ps with
  | nil => exact hw
  | cons b ps ih =>
    unfold afterRun
    rw [List.dropWhile_cons]
    split
    · next hx =>
      rw [beq_iff_eq] at hx
      subst hx
      exact ih (walk_single h ▸ hw)
    · exact hw

theorem walk_afterRun_scan {ps : Bytes} (hw : walk limit strict total opened ps = .ok ()) :
    walk limit strict total opened (afterRun Byte.scan ps) = .ok () :=
  walk_afterRun (.inr (.inr rfl)) hw

theorem walk_afterItem (h : Op.ofByte b ≠ .close)
    (hw : walk limit strict total opened (b :: rest) = .ok ()) :
    walk limit strict total opened (afterItem b rest) = .ok () :=
  walk_afterRun (.inr (.inl rfl)) (walk_afterElement h hw)

/-- A check can be evaluated. -/
theorem check_eq_ok {strict : Bool} {pattern : Bytes}
    (h : (check limit strict pattern).isOk) : check limit strict pattern = .ok () := by
  cases hc : check limit strict pattern with
  | ok => rfl
  | error fault =>
    rw [hc] at h
    cases h

/-! ### Strict and lenient checks -/

/-- What a strict check accepts, a lenient one does. -/
theorem walk_lenient {ps : Bytes} (hw : walk limit strict total opened ps = .ok ()) :
    walk limit false total opened ps = .ok () := by
  fun_induction walk limit strict total opened ps with
  | case1 => exact walk_nil_eq_ok.mpr (.inl rfl)
  | case2 => cases hw
  | case3 => exact walk_nil_eq_ok.mpr (.inl rfl)
  | case4 opened b rest hop ih => exact (walk_escape hop).trans (ih hw)
  | case5 => cases hw
  | case6 opened b rest hop hs =>
    rw [walk.eq_def]
    simp only [hop, hs, Bool.false_eq_true, if_false]
  | case7 opened b rest hop behind hs ih =>
    rw [walk.eq_def]
    simp only [hop, hs]
    exact ih hw
  | case8 => cases hw
  | case9 b rest hop _ ih =>
    rw [walk.eq_def]
    simp only [hop, Bool.false_eq_true, if_false]
    exact ih hw
  | case10 => cases hw
  | case11 b rest hop opening opened _ ih =>
    rw [walk.eq_def]
    simp only [hop, Bool.false_and, Bool.false_eq_true, if_false]
    exact ih hw
  | case12 => cases hw
  | case13 opened b rest hl he hs hc hop ih =>
    exact (walk_open hop).trans ((if_neg hl).trans (ih hw))
  | case14 opened b rest he hs hc hop ih =>
    obtain ⟨hg, ho⟩ := not_or.mp hop
    exact (walk_plain he hs hg ho hc).trans (ih hw)

/-- In what a strict check accepts, nothing closes a block that is not open. -/
theorem afterBlock_eq_nil_of_walk {ps : Bytes}
    (hw : walk limit true total opened ps = .ok ()) : afterBlock opened.length ps = [] := by
  generalize hstrict : true = strict at hw
  fun_induction walk limit strict total opened ps with
  | case1 => simp only [afterBlock]
  | case2 => cases hw
  | case3 => simp only [afterBlock]
  | case4 opened b rest hop ih => exact (afterBlock_escape _ hop).trans (ih hw)
  | case5 => cases hw
  | case6 _ _ _ _ _ h => exact absurd hstrict.symm h
  | case7 opened b rest hop behind hs ih => exact (afterBlock_set _ hop).trans (ih hw)
  | case8 => cases hw
  | case9 _ _ _ h => exact absurd hstrict.symm h
  | case10 => cases hw
  | case11 b rest hop opening opened _ ih => exact (afterBlock_close_succ _ hop).trans (ih hw)
  | case12 => cases hw
  | case13 opened b rest _ _ _ _ hop ih => exact (afterBlock_enter _ hop).trans (ih hw)
  | case14 opened b rest he hs hc hop ih =>
    obtain ⟨hg, ho⟩ := not_or.mp hop
    exact (afterBlock_plain _ he hs hg ho hc).trans (ih hw)

end LinearPattern
