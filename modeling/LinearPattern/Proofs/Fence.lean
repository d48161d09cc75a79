import LinearPattern.Proofs.ByteSet
import LinearPattern.Proofs.Machine
import LinearPattern.Proofs.Structure

/-!
# Fences

A fence is a byte at which every run of a block stops: the close of the block, or a boundary that
ends the match.  Whatever reads on from inside the block, be it to pass over a set, a block, an item
or a run of `~`, stays in front of the fence, and does the same with any bytes behind it.

* `afterBlock?`, `blockEnd?`: behind the close of a block, if there is one;
* `fenced`: the last byte of these is a fence;
* `lastElement`: the last element of a pattern;
* `exists_fenced_of_afterBlock?`, `fenced_of_walk`: what is fenced by a close, and by a boundary.

A boundary is no fence behind a run of `~`: the probe of the scan takes it for the first byte of a
block and goes on behind it.
-/

namespace LinearPattern

/-! ### Closed blocks -/

/-- What follows the block that is `depth` blocks further out than the one whose body starts here,
or nothing if the pattern ends first. -/
def afterBlock? (depth : Nat) : Bytes → Option Bytes
  | [] => none
  | b :: rest =>
    match Op.ofByte b with
    | .escape => afterBlock? depth (rest.drop 1)
    | .set => afterBlock? depth (afterSet rest)
    | .group => afterBlock? (depth + 1) rest
    | .option => afterBlock? (depth + 1) rest
    | .close =>
      match depth with
      | 0 => some rest
      | outer + 1 => afterBlock? outer rest
    | _ => afterBlock? depth rest
termination_by body => body.length
decreasing_by
  all_goals
    have := (afterSet_suffix rest).length_le
    simp only [List.length_cons, List.length_drop]
    omega

/-- The position behind the close of the block whose body starts at `p`, if the block is closed. -/
def blockEnd? (pattern : Bytes) (p : Nat) : Option Nat :=
  (afterBlock? 0 (pattern.drop p)).map (pattern.length - ·.length)

/-- An unclosed block takes all that is left. -/
theorem afterBlock_eq_getD (depth : Nat) (ps : Bytes) :
    afterBlock depth ps = (afterBlock? depth ps).getD [] := by
  fun_induction afterBlock? depth ps with
  | case1 => simp only [afterBlock, Option.getD_none]
  | case2 depth b rest hop ih => exact (afterBlock_escape depth hop).trans ih
  | case3 depth b rest hop ih => exact (afterBlock_set depth hop).trans ih
  | case4 depth b rest hop ih => exact (afterBlock_enter depth (.inl hop)).trans ih
  | case5 depth b rest hop ih => exact (afterBlock_enter depth (.inr hop)).trans ih
  | case6 b rest hop => exact afterBlock_close hop
  | case7 b rest hop outer ih => exact (afterBlock_close_succ outer hop).trans ih
  | case8 depth b rest he hs hg ho hc ih =>
    exact (afterBlock_plain depth he hs hg ho hc).trans ih

/-! ### Fenced bytes -/

/-- Whether the last byte of these is a fence: the close that ends the block `depth` blocks further
out, or a boundary in that block which ends the match.  `skips` holds where a boundary is passed
over, at the first byte of a block and behind a run of `~`. -/
def fenced (skips : Bool) (depth : Nat) : Bytes → Bool
  | [] => false
  | b :: rest =>
    match Op.ofByte b with
    | .escape => fenced false depth (rest.drop 1)
    | .set => fenced false depth (afterSet rest)
    | .group => fenced true (depth + 1) rest
    | .option => fenced true (depth + 1) rest
    | .scan => fenced true depth rest
    | .boundary => if rest.isEmpty then depth == 0 && !skips else fenced false depth rest
    | .close =>
      match depth with
      | 0 => rest.isEmpty
      | outer + 1 => fenced false outer rest
    | _ => fenced false depth rest
termination_by body => body.length
decreasing_by
  all_goals
    have := (afterSet_suffix rest).length_le
    simp only [List.length_cons, List.length_drop]
    omega

section

variable {skips : Bool} {depth : Nat} {b : UInt8} {rest ps : Bytes}

theorem fenced_ne_nil (h : fenced skips depth ps) : ps ≠ [] := by
  rintro rfl
  simp [fenced] at h

theorem fenced_escape (hop : Op.ofByte b = .escape) :
    fenced skips depth (b :: rest) = fenced false depth (rest.drop 1) := by
  rw [fenced.eq_def]
  simp only [hop]

theorem fenced_set (hop : Op.ofByte b = .set) :
    fenced skips depth (b :: rest) = fenced false depth (afterSet rest) := by
  rw [fenced.eq_def]
  simp only [hop]

theorem fenced_open (hop : Op.ofByte b = .group ∨ Op.ofByte b = .option) :
    fenced skips depth (b :: rest) = fenced true (depth + 1) rest := by
  rw [fenced.eq_def]
  rcases hop with hop | hop
  · simp only [hop]
  · simp only [hop]

theorem fenced_scan (hop : Op.ofByte b = .scan) :
    fenced skips depth (b :: rest) = fenced true depth rest := by
  rw [fenced.eq_def]
  simp only [hop]

theorem fenced_boundary (hop : Op.ofByte b = .boundary) :
    fenced skips depth (b :: rest) =
      if rest.isEmpty then depth == 0 && !skips else fenced false depth rest := by
  rw [fenced.eq_def]
  simp only [hop]

theorem fenced_close_zero (hop : Op.ofByte b = .close) :
    fenced skips 0 (b :: rest) = rest.isEmpty := by
  rw [fenced.eq_def]
  simp only [hop]

theorem fenced_close_succ (hop : Op.ofByte b = .close) :
    fenced skips (depth + 1) (b :: rest) = fenced false depth rest := by
  rw [fenced.eq_def]
  simp only [hop]

theorem fenced_plain (he : Op.ofByte b ≠ .escape) (hs : Op.ofByte b ≠ .set)
    (hg : Op.ofByte b ≠ .group) (ho : Op.ofByte b ≠ .option) (hn : Op.ofByte b ≠ .scan)
    (hb : Op.ofByte b ≠ .boundary) (hc : Op.ofByte b ≠ .close) :
    fenced skips depth (b :: rest) = fenced false depth rest := by
  rw [fenced.eq_def]
  simp only

theorem fenced_plus (hop : Op.ofByte b = .plus) :
    fenced skips depth (b :: rest) = fenced false depth rest :=
  fenced_plain (by simp [hop]) (by simp [hop]) (by simp [hop]) (by simp [hop]) (by simp [hop])
    (by simp [hop]) (by simp [hop])

/-- What is fenced where a boundary is passed over is fenced where it is not. -/
theorem fenced_of_skips (h : fenced true depth ps) : fenced skips depth ps := by
  cases ps with
  | nil => simp [fenced] at h
  | cons b rest =>
    rw [fenced.eq_def] at h ⊢
    simp only at h ⊢
    cases hop : Op.ofByte b with
    | boundary =>
      simp only [hop] at h ⊢
      split
      · next hrest => simp [hrest] at h
      · next hrest => simpa [hrest] using h
    | _ => simpa only [hop] using h

end

/-! ### Reading on inside a fence -/

theorem afterSet?_of_ne_nil {body : Bytes} (h : afterSet body ≠ []) :
    afterSet? body = some (afterSet body) := by
  unfold afterSet at h ⊢
  cases hs : afterSet? body with
  | none => simp [hs] at h
  | some rest => rfl

theorem afterSet_append {body : Bytes} (h : afterSet body ≠ []) (more : Bytes) :
    afterSet (body ++ more) = afterSet body ++ more := by
  exact afterSet_of_some (afterSet?_append (afterSet?_of_ne_nil h) more)

theorem drop_one_append {rest : Bytes} (h : rest.drop 1 ≠ []) (more : Bytes) :
    (rest ++ more).drop 1 = rest.drop 1 ++ more := by
  cases rest with
  | nil => exact absurd rfl h
  | cons x rest => rfl

section

variable {skips : Bool} {depth : Nat} {b : UInt8} {rest ps : Bytes}

/-- The blocks inside of a fence are left inside of it. -/
theorem afterBlock_of_fenced {m : Nat} (h : fenced skips (m + depth + 1) ps) :
    fenced false depth (afterBlock m ps) ∧
      ∀ more, afterBlock m (ps ++ more) = afterBlock m ps ++ more := by
  fun_induction afterBlock m ps generalizing skips with
  | case1 => exact absurd rfl (fenced_ne_nil h)
  | case2 m b rest hop ih =>
    rw [fenced_escape hop] at h
    refine ⟨(ih h).1, fun more => ?_⟩
    rw [← (ih h).2, List.cons_append, afterBlock_escape _ hop, drop_one_append (fenced_ne_nil h)]
  | case3 m b rest hop ih =>
    rw [fenced_set hop] at h
    refine ⟨(ih h).1, fun more => ?_⟩
    rw [← (ih h).2, List.cons_append, afterBlock_set _ hop, afterSet_append (fenced_ne_nil h)]
  | case4 m b rest hop ih =>
    rw [fenced_open (.inl hop), show m + depth + 1 + 1 = m + 1 + depth + 1 by omega] at h
    refine ⟨(ih h).1, fun more => ?_⟩
    rw [← (ih h).2, List.cons_append, afterBlock_enter _ (.inl hop)]
  | case5 m b rest hop ih =>
    rw [fenced_open (.inr hop), show m + depth + 1 + 1 = m + 1 + depth + 1 by omega] at h
    refine ⟨(ih h).1, fun more => ?_⟩
    rw [← (ih h).2, List.cons_append, afterBlock_enter _ (.inr hop)]
  | case6 b rest hop =>
    rw [Nat.zero_add, fenced_close_succ hop] at h
    exact ⟨h, fun more => by rw [List.cons_append, afterBlock_close hop]⟩
  | case7 b rest hop m ih =>
    rw [fenced_close_succ hop, show m + 1 + depth = m + depth + 1 by omega] at h
    refine ⟨(ih h).1, fun more => ?_⟩
    rw [← (ih h).2, List.cons_append, afterBlock_close_succ _ hop]
  | case8 m b rest he hs hg ho hc ih =>
    have hinside : ∃ skips', fenced skips' (m + depth + 1) rest := by
      by_cases hb : Op.ofByte b = .boundary
      · rw [fenced_boundary hb] at h
        split at h
        · simp at h
        · exact ⟨_, h⟩
      by_cases hn : Op.ofByte b = .scan
      · exact ⟨_, fenced_scan hn ▸ h⟩
      · exact ⟨_, fenced_plain he hs hg ho hn hb hc ▸ h⟩
    obtain ⟨skips', hinside⟩ := hinside
    refine ⟨(ih hinside).1, fun more => ?_⟩
    rw [← (ih hinside).2, List.cons_append, afterBlock_plain _ he hs hg ho hc]

/-- Elements inside of a fence are passed inside of it. -/
theorem afterElement_of_fenced (h : fenced skips depth (b :: rest))
    (hop : (Op.ofByte b).startsElement) :
    fenced false depth (afterElement b rest) ∧
      ∀ more, afterElement b (rest ++ more) = afterElement b rest ++ more := by
  obtain ⟨hc, hb, -, hn⟩ := Op.startsElement_eq_true.mp hop
  unfold afterElement
  split
  · next he =>
    rw [fenced_escape he] at h
    exact ⟨h, drop_one_append (fenced_ne_nil h)⟩
  · next hs =>
    rw [fenced_set hs] at h
    exact ⟨h, afterSet_append (fenced_ne_nil h)⟩
  · next hg => exact afterBlock_of_fenced (m := 0) (by rwa [Nat.zero_add, ← fenced_open (.inl hg)])
  · next ho => exact afterBlock_of_fenced (m := 0) (by rwa [Nat.zero_add, ← fenced_open (.inr ho)])
  · next he hs hg ho => exact ⟨fenced_plain he hs hg ho hn hb hc ▸ h, fun more => rfl⟩

theorem afterRun_append {x : UInt8} (h : afterRun x ps ≠ []) (more : Bytes) :
    afterRun x (ps ++ more) = afterRun x ps ++ more := by
  unfold afterRun at h ⊢
  rw [List.dropWhile_append, if_neg (by simpa using h)]

theorem fenced_afterRun_plus (h : fenced false depth ps) :
    fenced false depth (afterRun Byte.plus ps) := by
  induction ps with
  | nil => exact h
  | cons b ps ih =>
    by_cases hb : b = Byte.plus
    · subst hb
      exact ih (fenced_plus (b := Byte.plus) rfl ▸ h)
    · rwa [afterRun_of_head?_ne (by simpa using hb)]

/-- Behind a run of `~`, where a boundary is passed over, there is still the fence. -/
theorem fenced_afterRun_scan (h : fenced true depth ps) :
    fenced true depth (afterRun Byte.scan ps) := by
  induction ps with
  | nil => exact h
  | cons b ps ih =>
    by_cases hb : b = Byte.scan
    · subst hb
      exact ih (fenced_scan (b := Byte.scan) rfl ▸ h)
    · rwa [afterRun_of_head?_ne (by simpa using hb)]

/-- Items inside of a fence are passed inside of it. -/
theorem afterItem_of_fenced (h : fenced skips depth (b :: rest))
    (hop : (Op.ofByte b).startsElement) :
    fenced false depth (afterItem b rest) ∧
      ∀ more, afterItem b (rest ++ more) = afterItem b rest ++ more := by
  obtain ⟨helement, happend⟩ := afterElement_of_fenced h hop
  have hitem := fenced_afterRun_plus helement
  refine ⟨hitem, fun more => ?_⟩
  rw [afterItem, happend, afterRun_append (fenced_ne_nil hitem)]
  rfl

/-- What an element of one byte accepts is said inside of the fence. -/
theorem accepts_of_fenced (h : fenced skips depth (b :: rest)) (more : Bytes) (c : UInt8) :
    accepts (Op.ofByte b) b (rest ++ more) c = accepts (Op.ofByte b) b rest c := by
  cases hop : Op.ofByte b with
  | escape =>
    rw [fenced_escape hop] at h
    cases rest with
    | nil => exact absurd rfl (fenced_ne_nil h)
    | cons x rest => rfl
  | set =>
    rw [fenced_set hop] at h
    exact ByteSet.contains_of_afterSet? (afterSet?_of_ne_nil (fenced_ne_nil h)) c more
  | _ => rfl

end

/-! ### Closes as fences -/

/-- The close of a block fences what is in the block, wherever it is read from. -/
theorem exists_fenced_of_afterBlock? {depth : Nat} {ps rest : Bytes}
    (h : afterBlock? depth ps = some rest) (skips : Bool) :
    ∃ inner z, ps = inner ++ z :: rest ∧ Op.ofByte z = .close ∧
      fenced skips depth (inner ++ [z]) := by
  fun_induction afterBlock? depth ps generalizing skips with
  | case1 => cases h
  | case2 depth b tail hop ih =>
    obtain ⟨inner, z, hdrop, hclose, hfenced⟩ := ih h false
    cases tail with
    | nil => simp at hdrop
    | cons x tail =>
      refine ⟨b :: x :: inner, z, ?_, hclose, ?_⟩
      · rw [List.drop_one, List.tail_cons] at hdrop
        rw [hdrop, List.cons_append, List.cons_append]
      · rw [List.cons_append, fenced_escape hop]
        exact hfenced
  | case3 depth b tail hop ih =>
    obtain ⟨inner, z, hafter, hclose, hfenced⟩ := ih h false
    have hset : afterSet? tail = some (inner ++ z :: rest) :=
      hafter ▸ afterSet?_of_ne_nil (by rw [hafter]; simp)
    obtain ⟨members, rfl, hclosed⟩ := ByteSet.exists_closed_of_afterSet? hset
    refine ⟨b :: (members ++ Byte.setClose :: inner), z, by simp, hclose, ?_⟩
    rw [List.cons_append, fenced_set hop, List.append_assoc, List.cons_append, hclosed.afterSet_eq]
    exact hfenced
  | case4 depth b tail hop ih =>
    obtain ⟨inner, z, rfl, hclose, hfenced⟩ := ih h true
    exact ⟨b :: inner, z, rfl, hclose, (fenced_open (.inl hop)).trans hfenced⟩
  | case5 depth b tail hop ih =>
    obtain ⟨inner, z, rfl, hclose, hfenced⟩ := ih h true
    exact ⟨b :: inner, z, rfl, hclose, (fenced_open (.inr hop)).trans hfenced⟩
  | case6 b tail hop =>
    obtain rfl := Option.some.inj h
    exact ⟨[], b, rfl, hop, fenced_close_zero hop⟩
  | case7 b tail hop outer ih =>
    obtain ⟨inner, z, rfl, hclose, hfenced⟩ := ih h false
    exact ⟨b :: inner, z, rfl, hclose, (fenced_close_succ hop).trans hfenced⟩
  | case8 depth b tail he hs hg ho hc ih =>
    by_cases hn : Op.ofByte b = .scan
    · obtain ⟨inner, z, rfl, hclose, hfenced⟩ := ih h true
      exact ⟨b :: inner, z, rfl, hclose, (fenced_scan hn).trans hfenced⟩
    obtain ⟨inner, z, rfl, hclose, hfenced⟩ := ih h false
    refine ⟨b :: inner, z, rfl, hclose, ?_⟩
    by_cases hb : Op.ofByte b = .boundary
    · rw [List.cons_append, fenced_boundary hb, if_neg (by simp)]
      exact hfenced
    · exact (fenced_plain he hs hg ho hn hb hc).trans hfenced

/-! ### Boundaries as fences -/

/-- The last element of a pattern: its first byte, and what follows that. -/
def lastElement (ps : Bytes) : Option (UInt8 × Bytes) :=
  match ps with
  | [] => none
  | b :: rest =>
    if afterElement b rest = [] then some (b, rest) else lastElement (afterElement b rest)
termination_by ps.length
decreasing_by exact Nat.lt_succ_of_le (afterElement_suffix b rest).length_le

/-- The pattern ends in this byte, which is there for itself: it is not escaped, and it is not part
of a set or of a block. -/
def EndsIn (b : UInt8) (ps : Bytes) : Prop := lastElement ps = some (b, [])

instance (b : UInt8) (ps : Bytes) : Decidable (EndsIn b ps) :=
  inferInstanceAs (Decidable (lastElement ps = some (b, [])))

section

variable {limit total : Nat} {opened : List Bytes} {b : UInt8} {rest ps tail : Bytes}

/-- A strict check finds the close of every block that is open. -/
theorem closed_of_walk {depth : Nat} (hdepth : depth < opened.length)
    (hw : walk limit true total opened ps = .ok ()) : ∃ rest, afterBlock? depth ps = some rest := by
  fun_induction afterBlock? depth ps generalizing opened with
  | case1 =>
    have hopened : opened = [] := (walk_nil_eq_ok.mp hw).resolve_left (by simp)
    simp [hopened] at hdepth
  | case2 depth b rest hop ih => exact ih hdepth (walk_escape hop ▸ hw)
  | case3 depth b rest hop ih => exact ih hdepth (walk_afterSet hop hw)
  | case4 depth b rest hop ih =>
    exact ih (by rwa [List.length_cons, Nat.add_lt_add_iff_right]) (walk_inside (.inl hop) hw).2
  | case5 depth b rest hop ih =>
    exact ih (by rwa [List.length_cons, Nat.add_lt_add_iff_right]) (walk_inside (.inr hop) hw).2
  | case6 b rest => exact ⟨rest, rfl⟩
  | case7 b rest hop outer ih =>
    cases opened with
    | nil => simp at hdepth
    | cons opening opened => exact ih (Nat.lt_of_succ_lt_succ hdepth) (walk_close hop hw)
  | case8 depth b rest he hs hg ho hc ih => exact ih hdepth (walk_plain he hs hg ho hc ▸ hw)

/-- Behind a closed block the fence is sought in the block around it. -/
theorem fenced_of_afterBlock? {m : Nat} {skips : Bool} (h : afterBlock? m ps = some rest)
    (depth : Nat) (tail : Bytes) :
    fenced skips (m + depth + 1) (ps ++ tail) = fenced false depth (rest ++ tail) := by
  fun_induction afterBlock? m ps generalizing skips with
  | case1 => cases h
  | case2 m b ps hop ih =>
    have hne : ps.drop 1 ≠ [] := by
      intro hnil
      simp [hnil, afterBlock?] at h
    rw [List.cons_append, fenced_escape hop, drop_one_append hne]
    exact ih h
  | case3 m b ps hop ih =>
    have hne : afterSet ps ≠ [] := by
      intro hnil
      simp [hnil, afterBlock?] at h
    rw [List.cons_append, fenced_set hop, afterSet_append hne]
    exact ih h
  | case4 m b ps hop ih =>
    rw [List.cons_append, fenced_open (.inl hop),
      show m + depth + 1 + 1 = m + 1 + depth + 1 by omega]
    exact ih h
  | case5 m b ps hop ih =>
    rw [List.cons_append, fenced_open (.inr hop),
      show m + depth + 1 + 1 = m + 1 + depth + 1 by omega]
    exact ih h
  | case6 b ps hop =>
    obtain rfl := Option.some.inj h
    rw [List.cons_append, Nat.zero_add, fenced_close_succ hop]
  | case7 b ps hop m ih =>
    rw [List.cons_append, fenced_close_succ hop, show m + 1 + depth = m + depth + 1 by omega]
    exact ih h
  | case8 m b ps he hs hg ho hc ih =>
    by_cases hn : Op.ofByte b = .scan
    · exact (fenced_scan hn).trans (ih h)
    by_cases hb : Op.ofByte b = .boundary
    · have hne : ps ≠ [] := by
        rintro rfl
        simp [afterBlock?] at h
      rw [List.cons_append, fenced_boundary hb, if_neg (by simp [hne])]
      exact ih h
    · exact (fenced_plain he hs hg ho hn hb hc).trans (ih h)

/-- A closed block is passed over whatever follows what is behind it. -/
theorem afterBlock?_append {m : Nat} (h : afterBlock? m ps = some rest) (more : Bytes) :
    afterBlock? m (ps ++ more) = some (rest ++ more) := by
  fun_induction afterBlock? m ps with
  | case1 => cases h
  | case2 m b ps hop ih =>
    have hne : ps.drop 1 ≠ [] := by
      intro hnil
      simp [hnil, afterBlock?] at h
    rw [List.cons_append, afterBlock?.eq_def]
    simp only [hop, drop_one_append hne]
    exact ih h
  | case3 m b ps hop ih =>
    have hne : afterSet ps ≠ [] := by
      intro hnil
      simp [hnil, afterBlock?] at h
    rw [List.cons_append, afterBlock?.eq_def]
    simp only [hop, afterSet_append hne]
    exact ih h
  | case4 m b ps hop ih =>
    rw [List.cons_append, afterBlock?.eq_def]
    simp only [hop]
    exact ih h
  | case5 m b ps hop ih =>
    rw [List.cons_append, afterBlock?.eq_def]
    simp only [hop]
    exact ih h
  | case6 b ps hop =>
    obtain rfl := Option.some.inj h
    rw [List.cons_append, afterBlock?.eq_def]
    simp only [hop]
  | case7 b ps hop m ih =>
    rw [List.cons_append, afterBlock?.eq_def]
    simp only [hop]
    exact ih h
  | case8 m b ps he hs hg ho hc ih =>
    rw [List.cons_append, afterBlock?.eq_def]
    simp only
    exact ih h

/-- A strict check accepts no close with nothing open. -/
theorem not_close_of_walk (hw : walk limit true total [] (b :: rest) = .ok ()) :
    Op.ofByte b ≠ .close := by
  intro hop
  rw [walk.eq_def] at hw
  simp [hop] at hw

/-- A strict check finds the close of every set. -/
theorem closedSet_of_walk (hop : Op.ofByte b = .set)
    (hw : walk limit true total opened (b :: rest) = .ok ()) :
    ∃ behind, afterSet? rest = some behind := by
  rw [walk.eq_def] at hw
  simp only [hop] at hw
  cases hs : afterSet? rest with
  | none => simp [hs] at hw
  | some behind => exact ⟨behind, rfl⟩

/-- A strict check finds the close of a block that it comes to. -/
theorem closedBlock_of_walk (hop : Op.ofByte b = .group ∨ Op.ofByte b = .option)
    (hw : walk limit true total opened (b :: rest) = .ok ()) :
    afterBlock? 0 rest = some (afterBlock 0 rest) := by
  obtain ⟨behind, hclosed⟩ := closed_of_walk (Nat.succ_pos _) (walk_inside hop hw).2
  rw [afterBlock_eq_getD, hclosed, Option.getD_some]

/-- An element that a strict check accepts is passed over whatever follows, if it is not a
backslash at the end of the pattern. -/
theorem afterElement_append (hw : walk limit true total opened (b :: rest) = .ok ())
    (hback : Op.ofByte b = .escape → rest ≠ []) (more : Bytes) :
    afterElement b (rest ++ more) = afterElement b rest ++ more := by
  have hblock : Op.ofByte b = .group ∨ Op.ofByte b = .option →
      afterBlock 0 (rest ++ more) = afterBlock 0 rest ++ more := by
    intro hop
    rw [afterBlock_eq_getD, afterBlock?_append (closedBlock_of_walk hop hw), Option.getD_some]
  unfold afterElement
  cases hop : Op.ofByte b with
  | escape =>
    obtain ⟨x, rest, rfl⟩ := List.exists_cons_of_ne_nil (hback hop)
    rfl
  | set =>
    obtain ⟨behind, hset⟩ := closedSet_of_walk hop hw
    simp only [afterSet_of_some (afterSet?_append hset more), afterSet_of_some hset]
  | group => exact hblock (.inl hop)
  | option => exact hblock (.inr hop)
  | _ => rfl

/-- What an element of one byte accepts does not depend on what follows, if a strict check accepts
the element and it is not a backslash at the end of the pattern. -/
theorem accepts_append (hw : walk limit true total opened (b :: rest) = .ok ())
    (hback : Op.ofByte b = .escape → rest ≠ []) (more : Bytes) (c : UInt8) :
    accepts (Op.ofByte b) b (rest ++ more) c = accepts (Op.ofByte b) b rest c := by
  cases hop : Op.ofByte b with
  | escape =>
    obtain ⟨x, rest, rfl⟩ := List.exists_cons_of_ne_nil (hback hop)
    rfl
  | set =>
    obtain ⟨behind, hset⟩ := closedSet_of_walk hop hw
    exact ByteSet.contains_of_afterSet? hset c more
  | _ => rfl

/-- In a pattern that a strict check accepts, the fence is sought behind one element after the
other. -/
theorem fenced_element_append {skips : Bool} (hw : walk limit true total [] (b :: rest) = .ok ())
    (hback : Op.ofByte b = .escape → rest ≠ []) (htail : tail ≠ []) :
    fenced skips 0 (b :: (rest ++ tail)) =
      fenced (Op.ofByte b = .scan) 0 (afterElement b rest ++ tail) := by
  have hblock : Op.ofByte b = .group ∨ Op.ofByte b = .option →
      fenced skips 0 (b :: (rest ++ tail)) = fenced false 0 (afterBlock 0 rest ++ tail) := by
    intro hop
    rw [fenced_open hop]
    exact fenced_of_afterBlock? (closedBlock_of_walk hop hw) 0 tail
  unfold afterElement
  cases hop : Op.ofByte b with
  | escape =>
    obtain ⟨x, rest, rfl⟩ := List.exists_cons_of_ne_nil (hback hop)
    exact fenced_escape hop
  | set =>
    obtain ⟨behind, hset⟩ := closedSet_of_walk hop hw
    rw [fenced_set hop, afterSet, afterSet?_append hset, afterSet, hset]
    rfl
  | group => exact hblock (.inl hop)
  | option => exact hblock (.inr hop)
  | scan => exact fenced_scan hop
  | boundary => rw [fenced_boundary hop, if_neg (by simp [htail])]; rfl
  | close => exact absurd hop (not_close_of_walk hw)
  | _ =>
    exact fenced_plain (by simp [hop]) (by simp [hop]) (by simp [hop]) (by simp [hop])
      (by simp [hop]) (by simp [hop]) (by simp [hop])

/-- A boundary behind a pattern is a fence, if it is not the first byte, not escaped, and not behind
a `~`. -/
theorem fenced_of_walk (hw : walk limit true total [] ps = .ok ()) (hne : ps ≠ [])
    (hback : ¬EndsIn Byte.escape ps) (hscan : ¬EndsIn Byte.scan ps) (skips : Bool) :
    fenced skips 0 (ps ++ [Byte.boundary]) := by
  unfold EndsIn at hback hscan
  fun_induction lastElement ps generalizing skips with
  | case1 => exact absurd rfl hne
  | case2 b rest hlast =>
    have hoperand : Op.ofByte b = .escape → rest ≠ [] := by
      rintro hop rfl
      exact hback (by rw [Op.ofByte_eq_escape hop])
    have hnot : Op.ofByte b ≠ .scan := by
      intro hop
      simp only [afterElement, hop] at hlast
      exact hscan (by rw [Op.ofByte_eq_scan hop, hlast])
    rw [List.cons_append, fenced_element_append hw hoperand (by simp), hlast, decide_eq_false hnot,
      List.nil_append, fenced_boundary rfl]
    rfl
  | case3 b rest hmore ih =>
    have hoperand : Op.ofByte b = .escape → rest ≠ [] := by
      rintro hop rfl
      simp [afterElement, hop] at hmore
    rw [List.cons_append, fenced_element_append hw hoperand (by simp)]
    exact ih (walk_afterElement (not_close_of_walk hw) hw) hmore hback hscan _

end

end LinearPattern
