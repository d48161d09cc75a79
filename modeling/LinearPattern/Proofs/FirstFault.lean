import LinearPattern.Proofs.Grammar
import LinearPattern.Proofs.Token
import Mathlib.Control.Monad.Basic

/-!
# The first fault of a pattern

The check has two parts that have nothing to do with each other: the limit on how deep blocks nest,
which a lenient check makes, too, and the structure, which only a strict check looks at.  Either
part stops at the first place where it finds fault.

* `mostOpen`, `mostNested`: the greatest number of blocks that are open at once;
* `Innermost`: the block that opens at a position is the innermost one open at another;
* `Located`: a fault in the structure is where it says, and nothing in front of it is at fault.

A lenient check compares the limit with `mostNested` (`walk_lenient_eq`).  A strict check with a
limit either stops at a block that is one too many or comes to what it would come to with any
greater limit (`walk_limit`).  Where it stops is read off `exists_ends`: what is in front of that
place stays accepted, but for the blocks still open, when the pattern is cut off there
(`Inside.check_take`).
-/

namespace LinearPattern

/-! ### The greatest number of open blocks -/

/-- The number of open blocks behind the token that starts with the byte `b`, where so many are open
in front of it.  A close with nothing open does nothing. -/
def openBehind (opened : Nat) (b : UInt8) : Nat :=
  match Op.ofByte b with
  | .group => opened + 1
  | .option => opened + 1
  | .close => opened - 1
  | _ => opened

/-- The greatest number of blocks that are open at once from a place on, where so many are open
there.  An unclosed set is the last token. -/
def mostOpen (opened : Nat) (ps : Bytes) : Nat :=
  match ps with
  | [] => opened
  | b :: rest => max opened (mostOpen (openBehind opened b) (nextPlace b rest))
termination_by ps.length
decreasing_by
  have := (nextPlace_suffix b rest).length_le
  simp only [List.length_cons]
  omega

/-- The greatest number of groups and options of a pattern that are open at once. -/
def mostNested (pattern : Bytes) : Nat := mostOpen 0 pattern

section

variable {opened : Nat} {b : UInt8} {rest ps : Bytes}

@[simp] theorem mostOpen_nil : mostOpen opened [] = opened := by
  rw [mostOpen]

theorem le_mostOpen : opened ≤ mostOpen opened ps := by
  rw [mostOpen.eq_def]
  split
  · exact Nat.le_refl _
  · exact Nat.le_max_left _ _

/-- A token that closes nothing leaves the blocks open that are open in front of it. -/
theorem mostOpen_of_le (h : opened ≤ openBehind opened b) :
    mostOpen opened (b :: rest) = mostOpen (openBehind opened b) (nextPlace b rest) := by
  rw [mostOpen, Nat.max_eq_right (Nat.le_trans h le_mostOpen)]

theorem mostOpen_escape (h : Op.ofByte b = .escape) :
    mostOpen opened (b :: rest) = mostOpen opened (rest.drop 1) := by
  have hopen : openBehind opened b = opened := by simp only [openBehind, h]
  rw [mostOpen_of_le (Nat.le_of_eq hopen.symm), hopen]
  simp only [nextPlace, h]

theorem mostOpen_set (h : Op.ofByte b = .set) :
    mostOpen opened (b :: rest) = mostOpen opened (afterSet rest) := by
  have hopen : openBehind opened b = opened := by simp only [openBehind, h]
  rw [mostOpen_of_le (Nat.le_of_eq hopen.symm), hopen]
  simp only [nextPlace, h]

theorem mostOpen_open (h : Op.ofByte b = .group ∨ Op.ofByte b = .option) :
    mostOpen opened (b :: rest) = mostOpen (opened + 1) rest := by
  have hopen : openBehind opened b = opened + 1 := by
    rcases h with h | h <;> simp only [openBehind, h]
  rw [mostOpen_of_le (hopen ▸ Nat.le_succ opened), hopen]
  rcases h with h | h <;> simp only [nextPlace, h]

theorem mostOpen_close (h : Op.ofByte b = .close) :
    mostOpen opened (b :: rest) = max opened (mostOpen (opened - 1) rest) := by
  rw [mostOpen]
  simp only [openBehind, nextPlace, h]

theorem mostOpen_plain (he : Op.ofByte b ≠ .escape) (hs : Op.ofByte b ≠ .set)
    (hg : Op.ofByte b ≠ .group) (ho : Op.ofByte b ≠ .option) (hc : Op.ofByte b ≠ .close) :
    mostOpen opened (b :: rest) = mostOpen opened rest := by
  have hopen : openBehind opened b = opened := by
    unfold openBehind
    split <;> first | contradiction | rfl
  rw [mostOpen_of_le (Nat.le_of_eq hopen.symm), hopen, nextPlace_of_ne rest he hs]

/-- No more blocks open than there are bytes. -/
theorem mostOpen_le : mostOpen opened ps ≤ opened + ps.length := by
  fun_induction mostOpen opened ps with
  | case1 => exact Nat.le_add_right _ _
  | case2 opened b rest ih =>
    have hplace := (nextPlace_suffix b rest).length_le
    have hopen : openBehind opened b ≤ opened + 1 := by
      unfold openBehind
      split <;> omega
    rw [List.length_cons]
    omega

end

/-! ### Two limits -/

section

variable {limit total : Nat} {strict : Bool} {opened : List Bytes} {ps : Bytes}

/-- A lenient check looks for nothing but one block too many. -/
theorem walk_lenient_eq (hl : opened.length ≤ limit) :
    walk limit false total opened ps =
      if mostOpen opened.length ps ≤ limit then .ok ()
      else .error (.nestingOver (limit + 1) limit) := by
  generalize hstrict : false = strict
  fun_induction walk limit strict total opened ps with
  | case1 => rw [if_pos (by simp)]
  | case2 _ _ hs => exact absurd hs (by simp [← hstrict])
  | case3 => rw [if_pos (by simpa using hl)]
  | case4 opened b rest hop ih => rw [ih hl, mostOpen_escape hop]
  | case5 _ _ _ _ _ _ hs => exact absurd hs (by simp [← hstrict])
  | case6 opened b rest hop hs =>
    rw [mostOpen_set hop, afterSet, hs, Option.getD_none, mostOpen_nil, if_pos hl]
  | case7 opened b rest hop behind hs ih => rw [ih hl, mostOpen_set hop]
  | case8 _ _ _ _ hs => exact absurd hs (by simp [← hstrict])
  | case9 b rest hop hs ih =>
    rw [ih hl, mostOpen_close hop, List.length_nil, Nat.zero_sub, Nat.zero_max]
  | case10 _ _ _ _ _ _ hs => exact absurd hs (by simp [← hstrict])
  | case11 b rest hop opening opened hc ih =>
    have hmost : mostOpen (opening :: opened).length (b :: rest) ≤ limit ↔
        mostOpen opened.length rest ≤ limit := by
      rw [mostOpen_close hop, Nat.max_le, and_iff_right hl, List.length_cons, Nat.add_sub_cancel]
    simp only [ih (Nat.le_of_succ_le hl), hmost]
  | case12 opened b rest hfull _ _ _ hop =>
    -- the open blocks are as many as there may be, and this is one more
    have hlength : opened.length = limit := Nat.le_antisymm hl hfull
    have hmost : limit + 1 ≤ mostOpen opened.length (b :: rest) := by
      rw [mostOpen_open hop, hlength]
      exact le_mostOpen
    rw [if_neg (by omega), hlength]
  | case13 opened b rest hroom _ _ _ hop ih =>
    rw [ih (Nat.lt_of_not_le hroom), mostOpen_open hop, List.length_cons]
  | case14 opened b rest he hs hc hop ih =>
    obtain ⟨hg, ho⟩ := not_or.mp hop
    rw [ih hl, mostOpen_plain he hs hg ho hc]

/-- A check either stops at a block that is one too many, or comes to the same as with any limit
that is high enough. -/
theorem walk_limit {most : Nat} (hl : opened.length ≤ limit)
    (hmost : mostOpen opened.length ps ≤ most) :
    (walk limit strict total opened ps = .error (.nestingOver (limit + 1) limit) ∧ limit < most) ∨
      walk limit strict total opened ps = walk most strict total opened ps := by
  fun_induction walk limit strict total opened ps with
  | case1 => exact .inr (by rw [walk.eq_def])
  | case2 _ _ hs => exact .inr (by rw [walk.eq_def]; simp only [hs, if_true])
  | case3 _ _ hs => exact .inr (walk_nil_eq_ok.mpr (.inl (Bool.eq_false_iff.mpr hs))).symm
  | case4 opened b rest hop ih =>
    rw [walk_escape hop]
    exact ih hl (mostOpen_escape hop ▸ hmost)
  | case5 opened b rest pos hop hs hstrict =>
    right
    rw [walk.eq_def]
    simp only [hop, hs, hstrict, if_true, pos]
  | case6 opened b rest hop hs hstrict =>
    right
    rw [walk.eq_def]
    simp only [hop, hs, hstrict, Bool.false_eq_true, if_false]
  | case7 opened b rest hop behind hs ih =>
    rw [walk_set hop hs]
    rw [mostOpen_set hop, afterSet_of_some hs] at hmost
    rw [afterSet_of_some hs] at ih ⊢
    exact ih hl hmost
  | case8 b rest pos hop hstrict =>
    right
    rw [walk.eq_def]
    simp only [hop, hstrict, if_true, pos]
  | case9 b rest hop hstrict ih =>
    rw [mostOpen_close hop, Nat.max_le] at hmost
    rw [walk_stray hop (Bool.eq_false_iff.mpr hstrict)]
    exact ih hl hmost.2
  | case10 b rest pos hop opening opened hc =>
    right
    rw [walk.eq_def]
    simp only [hop, hc, if_true, pos]
  | case11 b rest hop opening opened hc ih =>
    rw [mostOpen_close hop, Nat.max_le, List.length_cons, Nat.add_sub_cancel] at hmost
    rw [walk_closes hop (Bool.eq_false_iff.mpr hc)]
    exact ih (Nat.le_of_succ_le hl) hmost.2
  | case12 opened b rest hfull _ _ _ hop =>
    -- the open blocks are as many as there may be, and this is one more
    have hlength : opened.length = limit := Nat.le_antisymm hl hfull
    left
    constructor
    · rw [hlength]
    · rw [mostOpen_open hop, hlength] at hmost
      exact Nat.le_trans le_mostOpen hmost
  | case13 opened b rest hroom _ _ _ hop ih =>
    rw [mostOpen_open hop] at hmost
    have hroom' : ¬most ≤ opened.length := Nat.not_le_of_lt (Nat.le_trans le_mostOpen hmost)
    rw [walk_open hop, if_neg hroom']
    exact ih (Nat.lt_of_not_le hroom) hmost
  | case14 opened b rest he hs hc hop ih =>
    obtain ⟨hg, ho⟩ := not_or.mp hop
    rw [walk_plain he hs hg ho hc]
    exact ih hl (mostOpen_plain he hs hg ho hc ▸ hmost)

end

/-! ### What is in front of a fault -/

namespace Derives

variable {n : Nat} {ps qs : Bytes}

/-- Items in front of a place that is not the end of the pattern do not depend on what is there. -/
theorem cut (h : Derives n ps qs) (hq : qs ≠ []) :
    ∃ front, ps = front ++ qs ∧ ∀ more, Derives n (front ++ more) more := by
  induction h with
  | nil => exact ⟨[], rfl, fun _ => .nil⟩
  | @escape n x rest qs _ ih =>
    obtain ⟨front, rfl, hd⟩ := ih hq
    exact ⟨Byte.escape :: x :: front, rfl, fun more => .escape (hd more)⟩
  | lone => exact absurd rfl hq
  | @set n body rest qs hm _ ih =>
    obtain ⟨members, rfl, hclosed⟩ := ByteSet.exists_closed_of_afterSet? hm.afterSet?_eq
    obtain ⟨front, rfl, hd⟩ := ih hq
    refine ⟨Byte.setOpen :: (members ++ Byte.setClose :: front), by simp, fun more => ?_⟩
    rw [List.cons_append, List.append_assoc]
    exact .set (ByteSet.members_of_afterSet? (hclosed.afterSet?_eq _)) (hd more)
  | @block n opening closing body rest qs hb _ _ ihi ih =>
    obtain ⟨inner, rfl, hi⟩ := ihi (List.cons_ne_nil _ _)
    obtain ⟨front, rfl, hd⟩ := ih hq
    refine ⟨opening :: (inner ++ closing :: front), by simp, fun more => ?_⟩
    rw [List.cons_append, List.append_assoc]
    exact .block hb (hi _) (hd more)
  | @single n b rest qs hb _ ih =>
    obtain ⟨front, rfl, hd⟩ := ih hq
    exact ⟨b :: front, rfl, fun more => .single hb (hd more)⟩

/-- Behind items a token starts. -/
theorem tokenStart (h : Derives n ps qs) : TokenStart ps qs := by
  induction h with
  | nil => exact .here
  | escape _ ih => exact .behind ih
  | lone => exact .behind .here
  | @set n body rest qs hm _ ih =>
    have hnext : nextPlace Byte.setOpen body = rest := afterSet_of_some hm.afterSet?_eq
    exact .behind (hnext.symm ▸ ih)
  | @block n opening closing body rest qs hb _ _ ihi ih =>
    have hbehind : TokenStart (closing :: rest) qs :=
      ih.cons (by simp [hb.isClose]) (by simp [hb.isClose])
    exact (ihi.trans hbehind).opened hb.opens
  | @single n b rest qs hb _ ih =>
    obtain ⟨he, hs, _⟩ := Byte.not_mem_structural.mp hb
    exact ih.cons he hs

end Derives

namespace Inside

variable {limit : Nat} {pattern ps : Bytes} {opened : List Bytes}

theorem tokenStart (h : Inside limit pattern opened ps) : TokenStart pattern ps := by
  induction h with
  | top h => exact h.tokenStart
  | block _ hop _ h ih => exact ih.trans (h.tokenStart.opened hop)

/-- What is in front of a place does not depend on what is there. -/
theorem cut (h : Inside limit pattern opened ps) (hp : ps ≠ []) :
    ∃ (front : Bytes) (opened' : List Bytes), pattern = front ++ ps ∧
      opened = opened'.map (· ++ ps) ∧
      ∀ more, Inside limit (front ++ more) (opened'.map (· ++ more)) more := by
  induction h with
  | top h =>
    obtain ⟨front, hpattern, hd⟩ := h.cut hp
    exact ⟨front, [], hpattern, rfl, fun more => .top (hd more)⟩
  | @block opened b rest ps _ hop hlt h ih =>
    obtain ⟨front, opened', rfl, rfl, hin⟩ := ih (List.cons_ne_nil _ _)
    obtain ⟨body, rfl, hd⟩ := h.cut hp
    refine ⟨front ++ b :: body, (b :: body) :: opened'.map (· ++ b :: body), by simp,
      by simp, fun more => ?_⟩
    rw [List.length_map] at hlt hd
    have hblock := Inside.block (hin (b :: (body ++ more))) hop (by simpa using hlt)
      (by simpa using hd more)
    simpa [Function.comp_def] using hblock

/-- Cut off at a place that the strict check comes to, the pattern has no fault but the blocks that
are open there. -/
theorem check_take (h : Inside limit pattern opened ps) :
    check limit true (pattern.take (pattern.length - ps.length)) =
      walk limit true pattern.length opened [] := by
  by_cases hp : ps = []
  · subst hp
    rw [List.length_nil, Nat.sub_zero, List.take_length, h.walk_eq]
    rfl
  · obtain ⟨front, opened', rfl, rfl, hin⟩ := h.cut hp
    have hfront : Inside limit front opened' [] := by simpa using hin []
    have hlength : (front ++ ps).length - ps.length = front.length := by simp
    rw [hlength, List.take_left, check, ← hfront.walk_eq]
    cases opened' with
    | nil => simp only [List.map_nil, walk.eq_def]
    | cons opening opened' =>
      -- the block opens at the same position of what is left
      have hpos : (front ++ ps).length - (opening ++ ps).length =
          front.length - opening.length := by
        simp only [List.length_append]
        omega
      simp only [List.map_cons, walk.eq_def, hpos]

end Inside

/-! ### Where a fault is -/

/-- A token that starts with the byte `b` is at position `p`. -/
structure TokenAt (pattern : Bytes) (p : Nat) (b : UInt8) (rest : Bytes) : Prop where
  place : pattern.drop p = b :: rest
  start : TokenStart pattern (b :: rest)

/-- The block that opens at position `i` is the innermost one that is open at position `p`: items
lead from behind its open to there. -/
structure Innermost (pattern : Bytes) (opening : UInt8) (i p : Nat) (body : Bytes) : Prop where
  token : TokenAt pattern i opening body
  opens : Op.ofByte opening = .group ∨ Op.ofByte opening = .option
  items : ∃ n, Derives n body (pattern.drop p)

/-- A strict check finds no fault but a block that is not closed yet. -/
def Faultless (limit : Nat) (front : Bytes) : Prop :=
  ∀ fault, check limit true front = .error fault → ∃ i, fault = .unclosedBlock i

/-- A fault in the structure of a pattern is where it says, and it is the first one. -/
inductive Located (limit : Nat) (pattern : Bytes) : Fault → Prop
  /-- A close is left over: what is in front of it is accepted. -/
  | unmatchedClose {p : Nat} {b : UInt8} {rest : Bytes} (ht : TokenAt pattern p b rest)
      (hop : Op.ofByte b = .close) (hfront : check limit true (pattern.take p) = .ok ()) :
      Located limit pattern (.unmatchedClose p)
  /-- The innermost block that is open needs another close. -/
  | mismatchedClose {i p : Nat} {opening b : UInt8} {body rest : Bytes}
      (ht : TokenAt pattern p b rest) (hop : Op.ofByte b = .close)
      (hin : Innermost pattern opening i p body) (hne : ¬Byte.Brackets opening b)
      (hfront : check limit true (pattern.take p) = .error (.unclosedBlock i)) :
      Located limit pattern (.mismatchedClose p)
  /-- A set opens here, and no brace closes it. -/
  | unclosedSet {p : Nat} {rest : Bytes} (ht : TokenAt pattern p Byte.setOpen rest)
      (hend : ∀ behind, ¬ByteSet.Members rest (Byte.setClose :: behind))
      (hfront : Faultless limit (pattern.take p)) : Located limit pattern (.unclosedSet p)
  /-- The innermost block that is open at the end of the pattern opens here. -/
  | unclosedBlock {p : Nat} {opening : UInt8} {body : Bytes}
      (hin : Innermost pattern opening p pattern.length body)
      (hfront : Faultless limit (pattern.take p)) : Located limit pattern (.unclosedBlock p)

namespace Inside

variable {limit : Nat} {pattern ps : Bytes} {opened : List Bytes} {b : UInt8} {rest : Bytes}

theorem drop_eq (h : Inside limit pattern opened ps) :
    pattern.drop (pattern.length - ps.length) = ps :=
  (List.suffix_iff_eq_drop.mp h.tokenStart.suffix).symm

theorem tokenAt (h : Inside limit pattern opened (b :: rest)) :
    TokenAt pattern (pattern.length - (b :: rest).length) b rest :=
  ⟨h.drop_eq, h.tokenStart⟩

theorem faultless (h : Inside limit pattern opened ps) :
    Faultless limit (pattern.take (pattern.length - ps.length)) := by
  intro fault hf
  rw [h.check_take, walk.eq_def] at hf
  cases opened with
  | nil => cases hf
  | cons opening opened => exact ⟨_, (Except.error.inj hf).symm⟩

/-- The innermost open block opens at a place that the check has come to. -/
theorem exists_opening {opening : Bytes} (h : Inside limit pattern (opening :: opened) ps) :
    ∃ b rest, opening = b :: rest ∧ Inside limit pattern opened (b :: rest) := by
  cases h with
  | block ho => exact ⟨_, _, rfl, ho⟩

theorem innermost (h : Inside limit pattern ((b :: rest) :: opened) ps) :
    Innermost pattern b (pattern.length - (b :: rest).length) (pattern.length - ps.length)
      rest := by
  have hplace := h.drop_eq
  cases h with
  | block ho hop _ hd => exact ⟨ho.tokenAt, hop, _, hplace.symm ▸ hd⟩

end Inside

section

variable {limit : Nat} {pattern ps : Bytes} {opened : List Bytes} {fault : Fault}

/-- Where the strict check ends with a fault, the fault is. -/
theorem Ends.located (hends : Ends limit pattern.length opened ps (.error fault))
    (hin : Inside limit pattern opened ps) :
    fault = .nestingOver (limit + 1) limit ∨ Located limit pattern fault := by
  cases hends with
  | unclosedBlock =>
    right
    obtain ⟨b, rest, rfl, ho⟩ := hin.exists_opening
    exact .unclosedBlock hin.innermost ho.faultless
  | @unclosedSet _ b rest hop hs =>
    right
    obtain rfl := Op.ofByte_eq_set hop
    refine .unclosedSet hin.tokenAt (fun behind hm => ?_) hin.faultless
    rw [hm.afterSet?_eq] at hs
    cases hs
  | @unmatchedClose b rest hop =>
    right
    refine .unmatchedClose hin.tokenAt hop ?_
    rw [hin.check_take, walk.eq_def]
  | @mismatchedClose opening opened b rest hop hc =>
    right
    obtain ⟨b', body, rfl, ho⟩ := hin.exists_opening
    refine .mismatchedClose hin.tokenAt hop hin.innermost (fun hb => ?_) ?_
    · rw [(Byte.closes_iff_brackets hin.innermost.opens).mpr hb] at hc
      cases hc
    · rw [hin.check_take, walk.eq_def]
      rfl
  | @nestingOver opened b rest hop hfull =>
    left
    rw [Nat.le_antisymm hin.length_le hfull]

end

/-- **The limit and the structure are checked apart, and the first fault is found.**  A lenient
check compares the greatest number of blocks that are open at once with the limit.  A strict check
either comes to the same fault, or to what it comes to with that number for its limit; so it accepts
just what both accept.  Any fault in the structure is where the strict check says, with nothing at
fault in front of it. -/
theorem check_first_fault (limit : Nat) (pattern : Bytes) :
    check limit false pattern =
        (if mostNested pattern ≤ limit then .ok ()
        else .error (.nestingOver (limit + 1) limit)) ∧
      ((check limit true pattern = .error (.nestingOver (limit + 1) limit) ∧
          limit < mostNested pattern) ∨
        check limit true pattern = check (mostNested pattern) true pattern) ∧
      (check limit true pattern = .ok () ↔
        check limit false pattern = .ok () ∧ check (mostNested pattern) true pattern = .ok ()) ∧
      ∀ fault, check limit true pattern = .error fault →
        fault = .nestingOver (limit + 1) limit ∨ Located limit pattern fault := by
  have hlenient : check limit false pattern =
      if mostNested pattern ≤ limit then .ok () else .error (.nestingOver (limit + 1) limit) :=
    walk_lenient_eq (Nat.zero_le limit)
  have hstrict : (check limit true pattern = .error (.nestingOver (limit + 1) limit) ∧
        limit < mostNested pattern) ∨
      check limit true pattern = check (mostNested pattern) true pattern :=
    walk_limit (Nat.zero_le limit) (Nat.le_refl _)
  refine ⟨hlenient, hstrict, ⟨fun h => ⟨walk_lenient h, ?_⟩, ?_⟩, fun fault hf => ?_⟩
  · rcases hstrict with ⟨hover, -⟩ | heq
    · rw [hover] at h
      cases h
    · rw [← heq, h]
  · rintro ⟨hl, hm⟩
    rcases hstrict with ⟨-, hlt⟩ | heq
    · rw [hlenient, if_neg (Nat.not_le_of_lt hlt)] at hl
      cases hl
    · rw [heq, hm]
  · -- the fault is the one of the place where the check ends
    have hstart : Inside limit pattern [] pattern := .top .nil
    obtain ⟨opened, ps, hin, hends⟩ := exists_ends hstart pattern.length
    rw [show walk limit true pattern.length [] pattern = .error fault from hf] at hends
    exact hends.located hin

/-- `(a[\]}` nests two blocks and is at fault in its last byte: a brace closes no option. -/
theorem check_first_fault_brace :
    let pattern : Bytes := [40, 97, 91, 92, 93, 125]
    check 7 true pattern = .error (.mismatchedClose 5) ∧
      Located 7 pattern (.mismatchedClose 5) := by
  intro pattern
  have hfault : check 7 true pattern = .error (.mismatchedClose 5) := by decide +kernel
  exact ⟨hfault, ((check_first_fault 7 pattern).2.2.2 _ hfault).resolve_left (by decide)⟩

end LinearPattern
