import LinearPattern.Proofs.Structure

/-!
# The grammar of well-formed patterns

A well-formed pattern is a string of items: escaped bytes, sets, groups and options of items, and
single bytes.  `Derives n ps qs` says that such a string leads from the place `ps` to the place
`qs`, with groups and options nested at most `n` deep.  The strict check, which walks over the
pattern with a stack of open blocks, accepts the patterns of this grammar, and no others
(`check_eq_ok_iff_derives`).

* `ByteSet.Members`, `Derives`: the grammar;
* `Inside`: what is in front of a place that the check comes to, with some blocks open;
* `Ends`: where and how the check ends.

The check passes over what is derived (`Derives.walk_eq`), and it goes on from one place to another
through what is derived, up to a place where it ends (`exists_ends`).
-/

namespace LinearPattern

/-! ### The grammar -/

/-- Members of a set lead from one place to another: a backslash or an at sign together with the
byte behind it, or any other byte but the brace that closes the set. -/
inductive ByteSet.Members : Bytes → Bytes → Prop
  | nil {ps : Bytes} : Members ps ps
  | pair {b x : UInt8} {rest qs : Bytes} (hb : b = Byte.escape ∨ b = Byte.letter)
      (h : Members rest qs) : Members (b :: x :: rest) qs
  | single {b : UInt8} {rest qs : Bytes} (hb : b ∉ [Byte.escape, Byte.letter, Byte.setClose])
      (h : Members rest qs) : Members (b :: rest) qs

/-- The bytes that are no items on their own. -/
def Byte.structural : List UInt8 :=
  [escape, setOpen, groupOpen, optionOpen, groupClose, optionClose, setClose]

/-- The open of a group and its close, or those of an option. -/
inductive Byte.Brackets : UInt8 → UInt8 → Prop
  | group : Brackets groupOpen groupClose
  | option : Brackets optionOpen optionClose

/-- Items lead from one place to another, with blocks nested at most so deep.  A backslash that is
the last byte of the pattern is an item, too. -/
inductive Derives : Nat → Bytes → Bytes → Prop
  | nil {n : Nat} {ps : Bytes} : Derives n ps ps
  | escape {n : Nat} {x : UInt8} {rest qs : Bytes} (h : Derives n rest qs) :
      Derives n (Byte.escape :: x :: rest) qs
  | lone {n : Nat} : Derives n [Byte.escape] []
  | set {n : Nat} {body rest qs : Bytes} (hm : ByteSet.Members body (Byte.setClose :: rest))
      (h : Derives n rest qs) : Derives n (Byte.setOpen :: body) qs
  | block {n : Nat} {opening closing : UInt8} {body rest qs : Bytes}
      (hb : Byte.Brackets opening closing) (hi : Derives n body (closing :: rest))
      (h : Derives (n + 1) rest qs) : Derives (n + 1) (opening :: body) qs
  | single {n : Nat} {b : UInt8} {rest qs : Bytes} (hb : b ∉ Byte.structural)
      (h : Derives n rest qs) : Derives n (b :: rest) qs

/-! ### Bytes -/

namespace Byte

variable {b opening closing : UInt8}

theorem not_mem_structural : b ∉ structural ↔ Op.ofByte b ≠ .escape ∧ Op.ofByte b ≠ .set ∧
    Op.ofByte b ≠ .group ∧ Op.ofByte b ≠ .option ∧ Op.ofByte b ≠ .close := by
  constructor
  · intro h
    unfold Op.ofByte
    split <;> simp_all [structural]
  · rintro ⟨he, hs, hg, ho, hc⟩ h
    simp only [structural, List.mem_cons, List.not_mem_nil, or_false] at h
    rcases h with rfl | rfl | rfl | rfl | rfl | rfl | rfl <;> contradiction

theorem Brackets.opens (h : Brackets opening closing) :
    Op.ofByte opening = .group ∨ Op.ofByte opening = .option := by
  cases h
  · exact .inl rfl
  · exact .inr rfl

theorem Brackets.isClose (h : Brackets opening closing) : Op.ofByte closing = .close := by
  cases h <;> rfl

/-- The check asks for the close that the grammar asks for. -/
theorem closes_iff_brackets {body : Bytes}
    (h : Op.ofByte opening = .group ∨ Op.ofByte opening = .option) :
    closes (opening :: body) closing = true ↔ Brackets opening closing := by
  constructor
  · intro hc
    rcases h with h | h
    · obtain rfl := Op.ofByte_eq_group h
      obtain rfl : closing = groupClose := by simpa [closes] using hc
      exact .group
    · obtain rfl := Op.ofByte_eq_option h
      obtain rfl : closing = optionClose := by
        rw [closes, List.head?_cons, if_neg (by decide)] at hc
        exact beq_iff_eq.mp hc
      exact .option
  · intro hb
    cases hb <;> rfl

end Byte

/-! ### Sets -/

namespace ByteSet

variable {body rest : Bytes}

theorem Members.afterSet?_eq (h : Members body (Byte.setClose :: rest)) :
    afterSet? body = some rest := by
  generalize hqs : Byte.setClose :: rest = qs at h
  induction h with
  | nil => rw [← hqs, afterSet?_cons, if_pos (beq_self_eq_true _)]
  | pair hb _ ih =>
    rw [afterSet?_cons]
    rcases hb with rfl | rfl
    · exact ih hqs
    · exact ih hqs
  | single hb _ ih =>
    simp only [List.mem_cons, List.not_mem_nil, or_false, not_or] at hb
    rw [afterSet?_cons, if_neg (by simpa using hb.2.2),
      if_neg (by simp [Byte.takesOperand, hb.1, hb.2.1])]
    exact ih hqs

theorem members_of_afterSet? (h : afterSet? body = some rest) :
    Members body (Byte.setClose :: rest) := by
  fun_induction afterSet? body with
  | case1 => cases h
  | case2 b hb =>
    obtain rfl := Option.some.inj h
    obtain rfl := beq_iff_eq.mp hb
    exact .nil
  | case3 => cases h
  | case4 b x tail hb =>
    obtain rfl := Option.some.inj h
    obtain rfl := beq_iff_eq.mp hb
    exact .nil
  | case5 b x tail _ ho ih =>
    have hb : b = Byte.escape ∨ b = Byte.letter := by simpa [Byte.takesOperand] using ho
    exact .pair hb (ih h)
  | case6 b x tail hb ho ih =>
    refine .single ?_ (ih h)
    simp_all [Byte.takesOperand]

end ByteSet

/-! ### The check passes over what is derived -/

section

variable {limit total : Nat} {strict : Bool} {opened : List Bytes} {b : UInt8} {rest : Bytes}

/-- A set is passed over if it is closed. -/
theorem walk_set (h : Op.ofByte b = .set) {behind : Bytes} (hs : afterSet? rest = some behind) :
    walk limit strict total opened (b :: rest) = walk limit strict total opened behind := by
  rw [walk.eq_def]
  simp only [h, hs, afterSet_of_some hs]

/-- The close that a block asks for ends it, and in a lenient check any close does. -/
theorem walk_closes {opening : Bytes} (h : Op.ofByte b = .close)
    (hc : (strict && !closes opening b) = false) :
    walk limit strict total (opening :: opened) (b :: rest) =
      walk limit strict total opened rest := by
  rw [walk.eq_def]
  simp only [h, hc, Bool.false_eq_true, if_false]

end

namespace Derives

variable {n : Nat} {ps qs rs : Bytes}

theorem trans (h : Derives n ps qs) (h' : Derives n qs rs) : Derives n ps rs := by
  induction h with
  | nil => exact h'
  | escape _ ih => exact .escape (ih h')
  | lone =>
    -- the end of the pattern derives nothing
    cases h'
    exact .lone
  | set hm _ ih => exact .set hm (ih h')
  | block hb hi _ _ ih => exact .block hb hi (ih h')
  | single hb _ ih => exact .single hb (ih h')

/-- The check passes over items, if there may be so many blocks more. -/
theorem walk_eq (h : Derives n ps qs) {limit : Nat} {opened : List Bytes}
    (hn : opened.length + n ≤ limit) (strict : Bool) (total : Nat) :
    walk limit strict total opened ps = walk limit strict total opened qs := by
  induction h generalizing opened with
  | nil => rfl
  | escape _ ih => exact (walk_escape rfl).trans (ih hn)
  | lone => exact walk_escape rfl
  | set hm _ ih => exact (walk_set rfl hm.afterSet?_eq).trans (ih hn)
  | @block n opening closing body rest qs hb _ _ ihi ih =>
    have hcloses : closes (opening :: body) closing := (Byte.closes_iff_brackets hb.opens).mpr hb
    have hroom : ((opening :: body) :: opened).length + n ≤ limit := by
      simp only [List.length_cons]
      omega
    rw [walk_open hb.opens, if_neg (by omega), ihi hroom,
      walk_closes hb.isClose (by simp [hcloses])]
    exact ih hn
  | single hb _ ih =>
    obtain ⟨he, hs, hg, ho, hc⟩ := Byte.not_mem_structural.mp hb
    exact (walk_plain he hs hg ho hc).trans (ih hn)

end Derives

/-! ### What is in front of a place -/

/-- The check comes to a place with these blocks open, the innermost first: items lead from the
start of the pattern to the outermost of them, from behind the open of each of them to the next, and
from behind the last open to the place. -/
inductive Inside (limit : Nat) (pattern : Bytes) : List Bytes → Bytes → Prop
  | top {ps : Bytes} (h : Derives limit pattern ps) : Inside limit pattern [] ps
  | block {opened : List Bytes} {b : UInt8} {rest ps : Bytes}
      (ho : Inside limit pattern opened (b :: rest))
      (hop : Op.ofByte b = .group ∨ Op.ofByte b = .option) (hlt : opened.length < limit)
      (h : Derives (limit - (opened.length + 1)) rest ps) :
      Inside limit pattern ((b :: rest) :: opened) ps

namespace Inside

variable {limit : Nat} {pattern ps qs : Bytes} {opened : List Bytes}

theorem length_le (h : Inside limit pattern opened ps) : opened.length ≤ limit := by
  cases h with
  | top => exact Nat.zero_le _
  | block _ _ hlt => exact hlt

/-- The check goes on over items. -/
theorem items (h : Inside limit pattern opened ps) (hd : Derives (limit - opened.length) ps qs) :
    Inside limit pattern opened qs := by
  cases h with
  | top h => exact .top (h.trans hd)
  | block ho hop hlt h => exact .block ho hop hlt (h.trans hd)

/-- With its close the innermost block is one item more of the block around it. -/
theorem close {opening : Bytes} {z : UInt8} {rest : Bytes}
    (h : Inside limit pattern (opening :: opened) (z :: rest)) (hz : closes opening z) :
    Inside limit pattern opened rest := by
  cases h with
  | @block _ b body _ ho hop hlt h =>
    have hb : Byte.Brackets b z := (Byte.closes_iff_brackets hop).mp hz
    have hdepth : limit - opened.length = limit - (opened.length + 1) + 1 := by omega
    refine ho.items ?_
    rw [hdepth]
    exact .block hb h .nil

/-- What the check comes to from a place on, it comes to from the start. -/
theorem walk_eq (h : Inside limit pattern opened ps) (strict : Bool) (total : Nat) :
    walk limit strict total opened ps = walk limit strict total [] pattern := by
  induction h with
  | top h =>
    symm
    exact h.walk_eq (by simp) strict total
  | @block opened b rest ps ho hop hlt h ih =>
    have hroom : ((b :: rest) :: opened).length + (limit - (opened.length + 1)) ≤ limit := by
      simp only [List.length_cons]
      omega
    rw [← ih, walk_open hop, if_neg (by omega), h.walk_eq hroom]

end Inside

/-! ### Where the check ends -/

/-- The strict check ends at this place, with these blocks open and with this answer. -/
inductive Ends (limit total : Nat) : List Bytes → Bytes → Except Fault Unit → Prop
  | accepted : Ends limit total [] [] (.ok ())
  | unclosedBlock {opening : Bytes} {opened : List Bytes} :
      Ends limit total (opening :: opened) [] (.error (.unclosedBlock (total - opening.length)))
  | unclosedSet {opened : List Bytes} {b : UInt8} {rest : Bytes} (hop : Op.ofByte b = .set)
      (h : afterSet? rest = none) :
      Ends limit total opened (b :: rest) (.error (.unclosedSet (total - (b :: rest).length)))
  | unmatchedClose {b : UInt8} {rest : Bytes} (hop : Op.ofByte b = .close) :
      Ends limit total [] (b :: rest) (.error (.unmatchedClose (total - (b :: rest).length)))
  | mismatchedClose {opening : Bytes} {opened : List Bytes} {b : UInt8} {rest : Bytes}
      (hop : Op.ofByte b = .close) (h : closes opening b = false) :
      Ends limit total (opening :: opened) (b :: rest)
        (.error (.mismatchedClose (total - (b :: rest).length)))
  | nestingOver {opened : List Bytes} {b : UInt8} {rest : Bytes}
      (hop : Op.ofByte b = .group ∨ Op.ofByte b = .option) (h : limit ≤ opened.length) :
      Ends limit total opened (b :: rest) (.error (.nestingOver (opened.length + 1) limit))

section

variable {limit : Nat} {pattern ps : Bytes} {opened : List Bytes}

/-- From a place that it comes to, the strict check goes on to a place where it ends. -/
theorem exists_ends (h : Inside limit pattern opened ps) (total : Nat) :
    ∃ opened' ps', Inside limit pattern opened' ps' ∧
      Ends limit total opened' ps' (walk limit true total opened ps) := by
  generalize hstrict : true = strict
  fun_induction walk limit strict total opened ps with
  | case1 => exact ⟨_, _, h, .accepted⟩
  | case2 => exact ⟨_, _, h, .unclosedBlock⟩
  | case3 _ _ hs => exact absurd hstrict.symm hs
  | case4 opened b rest hop ih =>
    obtain rfl := Op.ofByte_eq_escape hop
    cases rest with
    | nil => exact ih (h.items .lone)
    | cons x rest => exact ih (h.items (.escape .nil))
  | case5 opened b rest pos hop hs => exact ⟨_, _, h, .unclosedSet hop hs⟩
  | case6 _ _ _ _ _ hs => exact absurd hstrict.symm hs
  | case7 opened b rest hop behind hs ih =>
    obtain rfl := Op.ofByte_eq_set hop
    rw [afterSet_of_some hs] at ih ⊢
    exact ih (h.items (.set (ByteSet.members_of_afterSet? hs) .nil))
  | case8 b rest pos hop => exact ⟨_, _, h, .unmatchedClose hop⟩
  | case9 _ _ _ hs => exact absurd hstrict.symm hs
  | case10 b rest pos hop opening opened hc =>
    exact ⟨_, _, h, .mismatchedClose hop (by simpa [← hstrict] using hc)⟩
  | case11 b rest hop opening opened hc ih =>
    exact ih (h.close (by simpa [← hstrict] using hc))
  | case12 opened b rest hl _ _ _ hop => exact ⟨_, _, h, .nestingOver hop hl⟩
  | case13 opened b rest hl _ _ _ hop ih =>
    exact ih (.block h hop (Nat.lt_of_not_le hl) .nil)
  | case14 opened b rest he hs hc hop ih =>
    obtain ⟨hg, ho⟩ := not_or.mp hop
    exact ih (h.items (.single (Byte.not_mem_structural.mpr ⟨he, hs, hg, ho, hc⟩) .nil))

/-- **The strict check accepts the grammar.**  A pattern passes the strict check just when items
make it up, with groups and options nested at most as deep as the limit. -/
theorem check_eq_ok_iff_derives (limit : Nat) (pattern : Bytes) :
    check limit true pattern = .ok () ↔ Derives limit pattern [] := by
  constructor
  · intro h
    have hstart : Inside limit pattern [] pattern := .top .nil
    obtain ⟨opened, ps, hin, hends⟩ := exists_ends hstart pattern.length
    rw [show walk limit true pattern.length [] pattern = .ok () from h] at hends
    cases hends
    cases hin with
    | top hd => exact hd
  · intro h
    have hroom : ([] : List Bytes).length + limit ≤ limit := by simp
    exact (h.walk_eq hroom true pattern.length).trans (walk_nil_eq_ok.mpr (.inr rfl))

end

end LinearPattern
