import LinearPattern.Proofs.Boundary
import LinearPattern.Proofs.DeadBytes
import LinearPattern.Proofs.Verdict
import Mathlib.Logic.Relation

/-!
# Repetitions are greedy

An element with `+` behind it is matched once, and then again from where it ended, for as long as it
takes some data.  What the element takes is what it takes as a pattern of its own, so a repetition
comes to the end of a chain of matches of the element, each from the end of the one before
(`matchFrom_repeated`).

* `Advances`: a match at one position takes the data up to another;
* `ChainEnds`: where the chain of matches from a position on ends; there is one such position only
  (`ChainEnds.unique`);
* `IsElement`: a pattern that is one complete element.

An element that ends with the pattern comes to the same with `+` behind it, as it is closed and none
of the `+` is part of it (`IsElement.elementAt_append`).  A boundary in it would end the match from
inside of the repetition, so there is none.
-/

namespace LinearPattern

/-! ### Chains of matches -/

/-- The match at `x` takes some of the data, up to `y`. -/
def Advances (f : Nat → Verdict) (size x y : Nat) : Prop :=
  x < size ∧ (f x).dataEnd? = some y ∧ x < y

/-- The chain of matches from `x` on, each from the end of the one before, ends at `y`: no match
there takes any data. -/
def ChainEnds (f : Nat → Verdict) (size x y : Nat) : Prop :=
  Relation.ReflTransGen (Advances f size) x y ∧ ∀ z, ¬Advances f size y z

section

variable {f : Nat → Verdict} {size x y z : Nat}

theorem Advances.unique (h : Advances f size x y) (h' : Advances f size x z) : y = z :=
  Option.some.inj (h.2.1.symm.trans h'.2.1)

/-- A chain that does not advance ends where it starts. -/
theorem ChainEnds.refl (h : ∀ y, ¬Advances f size x y) : ChainEnds f size x x :=
  ⟨.refl, h⟩

/-- A match in front of a chain leaves its end where it is. -/
theorem ChainEnds.head (h : Advances f size x y) (hend : ChainEnds f size y z) :
    ChainEnds f size x z :=
  ⟨.head h hend.1, hend.2⟩

/-- A chain ends at one position only. -/
theorem ChainEnds.unique (h : ChainEnds f size x y) (h' : ChainEnds f size x z) : y = z := by
  have hdeterministic : Relator.RightUnique (Advances f size) := fun _ _ _ => Advances.unique
  rcases h.1.total_of_right_unique hdeterministic h'.1 with hyz | hzy
  · rcases hyz.cases_head with heq | ⟨next, hnext, -⟩
    · exact heq
    · exact absurd hnext (h.2 next)
  · rcases hzy.cases_head with heq | ⟨next, hnext, -⟩
    · exact heq.symm
    · exact absurd hnext (h'.2 next)

/-- A repetition of an element that does not end the match comes to the end of the chain of its
matches. -/
theorem repeated_chainEnds {once : Nat → Outcome} {pattern : Bytes}
    (hended : ∀ x, x < size → ∀ qs e, once x ≠ .ended qs e)
    (hf : ∀ x, x < size → f x = (once x).verdict pattern) (after : Bytes) (d : Nat) :
    ∃ x, repeated once after size d = .reached after x ∧ ChainEnds f size d x := by
  fun_induction repeated once after size d with
  | case1 d hd ps e ho he ih =>
    obtain ⟨x, hx, hend⟩ := ih
    have hadvance : Advances f size d e := by
      refine ⟨hd, ?_, he⟩
      rw [hf d hd, ho]
      rfl
    exact ⟨x, hx, hend.head hadvance⟩
  | case2 d hd ps e ho he =>
    refine ⟨d, rfl, .refl ?_⟩
    rintro y ⟨-, hy, hlt⟩
    rw [hf d hd, ho] at hy
    obtain rfl := Option.some.inj hy
    exact he hlt
  | case3 d hd ps e ho =>
    refine ⟨d, rfl, .refl ?_⟩
    rintro y ⟨-, hy, -⟩
    rw [hf d hd, ho] at hy
    cases hy
  | case4 d hd ps e ho => exact absurd ho (hended d hd ps e)
  | case5 d hd => exact ⟨d, rfl, .refl fun y h => hd h.1⟩

end

/-- Where each match takes one byte that satisfies a test, a chain takes the longest run of such
bytes. -/
theorem chainEnds_takeWhile {f : Nat → Verdict} {data : Array UInt8} {test : UInt8 → Bool}
    (h : ∀ x (hx : x < data.size), (f x).dataEnd? = if test data[x] then some (x + 1) else none)
    (x : Nat) :
    ChainEnds f data.size x (x + ((data.toList.drop x).takeWhile test).length) := by
  by_cases hx : x < data.size
  · have hend := h x hx
    rw [drop_toList hx, List.takeWhile_cons]
    split
    · next htest =>
      rw [if_pos htest] at hend
      have hlength : x + (data[x] :: (data.toList.drop (x + 1)).takeWhile test).length =
          x + 1 + ((data.toList.drop (x + 1)).takeWhile test).length := by
        rw [List.length_cons]
        omega
      rw [hlength]
      exact (chainEnds_takeWhile h (x + 1)).head ⟨hx, hend, Nat.lt_succ_self x⟩
    · next htest =>
      rw [if_neg htest] at hend
      refine .refl ?_
      rintro y ⟨-, hy, -⟩
      rw [hend] at hy
      cases hy
  · rw [List.drop_eq_nil_of_le (by simpa using hx)]
    exact .refl fun y hadvance => hx hadvance.1
termination_by data.size - x

/-! ### Complete elements -/

/-- The element that starts with the byte `b`, run without hops, as a function of the position. -/
def elementAt (data : Array UInt8) (room : Nat) (b : UInt8) (rest : Bytes) : Nat → Outcome :=
  element data (bodyAt (fun _ => none) data room b rest) b rest

/-- A block of one item comes to what the item comes to. -/
theorem block_eq_item {hopAt : Bytes → Option Hop} {data : Array UInt8} {room : Nat} {start : Bool}
    {b : UInt8} {rest : Bytes} {d : Nat} (h : (Op.ofByte b).startsElement)
    (hnil : afterItem b rest = []) (hd : d < data.size) :
    block hopAt data room start (b :: rest) d none =
      item data (bodyAt hopAt data room b rest) b rest d := by
  rw [block_element h hd (by simp)]
  cases hi : item data (bodyAt hopAt data room b rest) b rest d with
  | reached qs e =>
    rw [item_reached hi, hnil]
    exact block_nil
  | failed qs e => rfl
  | ended qs e => rfl

/-- A pattern that is one complete element, accepted by a strict check and read without a
boundary. -/
structure IsElement (limit : Nat) (pattern : Bytes) : Prop where
  accepted : check limit true pattern = .ok ()
  complete : elementEnd pattern 0 = .ok pattern.length
  head_ne_plus : pattern.head? ≠ some Byte.plus
  head_ne_scan : pattern.head? ≠ some Byte.scan
  /-- A `+` behind it would be escaped. -/
  ne_escape : pattern ≠ [Byte.escape]
  no_boundary : hasBoundary pattern = false

namespace IsElement

variable {limit : Nat} {pattern : Bytes} {b : UInt8} {rest : Bytes}

theorem exists_cons (h : IsElement limit pattern) : ∃ b rest, pattern = b :: rest := by
  have hcomplete := h.complete
  cases pattern with
  | nil => cases hcomplete
  | cons b rest => exact ⟨b, rest, rfl⟩

theorem startsElement (h : IsElement limit (b :: rest)) : (Op.ofByte b).startsElement := by
  refine Op.startsElement_eq_true.mpr ⟨not_close_of_walk h.accepted, ?_, ?_, ?_⟩
  · intro hb
    have hboundary := h.no_boundary
    rw [hasBoundary_boundary hb] at hboundary
    cases hboundary
  · intro hp
    exact h.head_ne_plus (congrArg some (Op.ofByte_eq_plus hp))
  · intro hs
    exact h.head_ne_scan (congrArg some (Op.ofByte_eq_scan hs))

/-- Nothing of the pattern is left behind the element. -/
theorem afterElement_eq (h : IsElement limit (b :: rest)) : afterElement b rest = [] := by
  rw [(elementEnd_eq_ok rfl h.complete).2, List.drop_length]

theorem operand_ne_nil (h : IsElement limit (b :: rest)) : Op.ofByte b = .escape → rest ≠ [] := by
  rintro hop rfl
  exact h.ne_escape (by rw [Op.ofByte_eq_escape hop])

variable {data : Array UInt8}

/-- What follows an element is carried along by it. -/
theorem elementAt_append (h : IsElement limit (b :: rest)) (room : Nat) (more : Bytes) (d : Nat) :
    elementAt data room b (rest ++ more) d = (elementAt data room b rest d).append more :=
  element_append_of_walk h.accepted h.operand_ne_nil room more d

/-- A block of one element comes to what the element comes to. -/
theorem block_eq_elementAt (h : IsElement limit (b :: rest)) (room : Nat) {d : Nat}
    (hd : d < data.size) :
    block (fun _ => none) data room true (b :: rest) d none = elementAt data room b rest d := by
  have hnil := h.afterElement_eq
  rw [block_eq_item h.startsElement (by rw [afterItem, hnil]; rfl) hd,
    item_of_head?_ne (by simp [hnil])]
  rfl

/-- An element does not end the match, whatever follows it. -/
theorem elementAt_ne_ended (h : IsElement limit (b :: rest)) (room : Nat) (more : Bytes) {d : Nat}
    (hd : d < data.size) (qs : Bytes) (e : Nat) :
    elementAt data room b (rest ++ more) d ≠ .ended qs e := by
  rw [h.elementAt_append, ← h.block_eq_elementAt room hd]
  intro ho
  cases hblock : block (fun _ => none) data room true (b :: rest) d none with
  | ended ps x =>
    exact Config.outcome_ne_ended ⟨room, true, b :: rest, d, none⟩ h.no_boundary ps x hblock
  | reached ps x => simp [hblock, Outcome.append] at ho
  | failed ps x => simp [hblock, Outcome.append] at ho

/-- A block of one element with `+` behind it matches the element once, and then for as long as it
takes some data. -/
theorem block_eq_repeated (h : IsElement limit (b :: rest)) (room : Nat) {k : Nat} (hk : 0 < k)
    {d : Nat} (hd : d < data.size) :
    let once := elementAt data room b (rest ++ List.replicate k Byte.plus)
    block (fun _ => none) data room true (b :: (rest ++ List.replicate k Byte.plus)) d none =
      match once d with
      | .reached _ e => repeated once [] data.size e
      | .failed qs e => .failed qs e
      | .ended qs e => .ended qs e := by
  have hafter : afterElement b (rest ++ List.replicate k Byte.plus) =
      List.replicate k Byte.plus := by
    rw [afterElement_append h.accepted h.operand_ne_nil, h.afterElement_eq, List.nil_append]
  have hplus : (List.replicate k Byte.plus).head? = some Byte.plus := by
    simp [List.head?_replicate, Nat.ne_of_gt hk]
  have hrun : afterRun Byte.plus (List.replicate k Byte.plus) = [] := by
    have hall := afterRun_replicate Byte.plus k []
    rwa [List.append_nil] at hall
  intro once
  rw [block_eq_item h.startsElement (by rw [afterItem, hafter, hrun]) hd,
    item_of_head?_eq (by rw [hafter, hplus]), afterItem, hafter, hrun]
  rfl

end IsElement

/-! ### Whole matches -/

/-- With data left, a match from the start of a pattern is the block of the pattern. -/
theorem matchFrom_eq_block {bounds : Bounds} {pattern : Bytes} {data : Array UInt8} {d : Nat}
    (hd : d < data.size) :
    matchFrom bounds pattern 0 data d =
      (block (fun _ => none) data bounds.nesting true pattern d bounds.maxOps).verdict pattern := by
  rw [matchFrom, matchUsing, run_plain, Nat.min_eq_left (Nat.le_of_lt hd), run_of_lt hd,
    List.drop_zero]

section

variable {limit : Nat} {pattern : Bytes} {data : Array UInt8} {d : Nat}

/-- An element with `+` behind it fails where the element fails on its own, and otherwise comes to
the end of the chain of matches behind the first one. -/
theorem IsElement.matchFrom_cases (h : IsElement limit pattern) (room : Nat) {k : Nat} (hk : 0 < k)
    (hd : d < data.size) :
    let bounds : Bounds := { maxOps := none, nesting := room }
    let f (x : Nat) := matchFrom bounds pattern 0 data x
    let all := matchFrom bounds (pattern ++ List.replicate k Byte.plus) 0 data d
    (∃ pn x, f d = .mismatched pn x ∧ all = f d) ∨
      ∃ pn e x, f d = .matched pn e ∧ ChainEnds f data.size e x ∧
        all = .matched (pattern.length + k) x := by
  intro bounds f all
  obtain ⟨b, rest, rfl⟩ := h.exists_cons
  have hf : ∀ x, x < data.size → f x =
      (elementAt data room b (rest ++ List.replicate k Byte.plus) x).verdict
        (b :: rest ++ List.replicate k Byte.plus) := by
    intro x hx
    rw [h.elementAt_append, Outcome.verdict_append, ← h.block_eq_elementAt room hx]
    exact matchFrom_eq_block hx
  have hall : all = (block (fun _ => none) data room true
      (b :: (rest ++ List.replicate k Byte.plus)) d none).verdict
        (b :: rest ++ List.replicate k Byte.plus) := matchFrom_eq_block hd
  rw [h.block_eq_repeated room hk hd] at hall
  have hfirst := hf d hd
  cases ho : elementAt data room b (rest ++ List.replicate k Byte.plus) d with
  | reached qs e =>
    obtain ⟨x, hrepeated, hend⟩ :=
      repeated_chainEnds (fun x => h.elementAt_ne_ended room _) hf [] e
    rw [ho] at hall hfirst
    simp only [hrepeated] at hall
    refine .inr ⟨_, e, x, hfirst, hend, hall.trans ?_⟩
    simp only [Outcome.verdict, List.length_cons, List.length_append, List.length_replicate,
      List.length_nil, Nat.sub_zero, Nat.add_right_comm]
  | failed qs e =>
    left
    rw [ho] at hall hfirst
    exact ⟨_, e, hfirst, hall.trans hfirst.symm⟩
  | ended qs e => exact absurd ho (h.elementAt_ne_ended room _ hd qs e)

/-- An element of one data byte takes that byte if it accepts it. -/
theorem IsElement.matchFrom_of_single {b : UInt8} {rest : Bytes} (h : IsElement limit (b :: rest))
    (hg : Op.ofByte b ≠ .group) (ho : Op.ofByte b ≠ .option) (room : Nat) {x : Nat}
    (hx : x < data.size) :
    matchFrom { maxOps := none, nesting := room } (b :: rest) 0 data x =
      if accepts (Op.ofByte b) b rest data[x] then .matched (b :: rest).length (x + 1)
      else .mismatched 0 x := by
  rw [matchFrom_eq_block hx, h.block_eq_elementAt room hx, elementAt, element_of_single hg ho,
    Array.getElem?_eq_getElem hx]
  simp only
  split
  · rw [h.afterElement_eq]
    rfl
  · simp [Outcome.verdict]

/-- An element of one data byte with `+` behind it takes the longest run of bytes that it accepts,
and fails where there is none. -/
theorem IsElement.matchFrom_run {b : UInt8} {rest : Bytes} (h : IsElement limit (b :: rest))
    (hg : Op.ofByte b ≠ .group) (ho : Op.ofByte b ≠ .option) (room : Nat) {k : Nat} (hk : 0 < k)
    (hd : d < data.size) :
    let taken := (data.toList.drop d).takeWhile (accepts (Op.ofByte b) b rest)
    matchFrom { maxOps := none, nesting := room } (b :: rest ++ List.replicate k Byte.plus) 0 data
        d =
      if taken = [] then .mismatched 0 d
      else .matched ((b :: rest).length + k) (d + taken.length) := by
  intro taken
  let f (x : Nat) := matchFrom { maxOps := none, nesting := room } (b :: rest) 0 data x
  have hsingle : ∀ x (hx : x < data.size), f x =
      if accepts (Op.ofByte b) b rest data[x] then .matched (b :: rest).length (x + 1)
      else .mismatched 0 x := fun x hx => h.matchFrom_of_single hg ho room hx
  have hdataEnd : ∀ x (hx : x < data.size), (f x).dataEnd? =
      if accepts (Op.ofByte b) b rest data[x] then some (x + 1) else none := by
    intro x hx
    rw [hsingle x hx]
    split
    · rfl
    · rfl
  have hcases := h.matchFrom_cases room hk hd
  have hfirst := hsingle d hd
  have htaken : taken = (data[d] :: data.toList.drop (d + 1)).takeWhile
      (accepts (Op.ofByte b) b rest) := by rw [← drop_toList hd]
  rw [List.takeWhile_cons] at htaken
  split at htaken
  · next htest =>
    rw [if_pos htest] at hfirst
    rcases hcases with ⟨pn, x, hmismatched, -⟩ | ⟨pn, e, x, hmatched, hend, hall⟩
    · cases hfirst.symm.trans hmismatched
    · obtain ⟨-, rfl⟩ := Verdict.matched.inj (hfirst.symm.trans hmatched)
      have hx := hend.unique (chainEnds_takeWhile hdataEnd (d + 1))
      have hlength : x = d + taken.length := by
        rw [hx, htaken, List.length_cons]
        omega
      rw [hall, if_neg (by simp [htaken]), hlength]
  · next htest =>
    rw [if_neg htest] at hfirst
    rcases hcases with ⟨pn, x, -, hall⟩ | ⟨pn, e, x, hmatched, -⟩
    · rw [hall, if_pos htaken]
      exact hfirst
    · cases hfirst.symm.trans hmatched

/-- **A repetition is greedy.**  Let `f` match one complete element on its own.  With `+` behind it,
the element fails where it fails on its own, and otherwise it takes the data up to the end of the
chain of matches that starts behind the first one.  So an element of one data byte takes the longest
run of bytes that it accepts. -/
theorem matchFrom_repeated (h : IsElement limit pattern) {k : Nat} (hk : 0 < k)
    (hd : d < data.size) :
    let bounds : Bounds := { maxOps := none, nesting := limit }
    let f (x : Nat) := matchFrom bounds pattern 0 data x
    let all := matchFrom bounds (pattern ++ List.replicate k Byte.plus) 0 data d
    (∀ pn x, f d = .mismatched pn x → all = f d) ∧
    (∀ pn e, f d = .matched pn e →
      ∃ x, (∀ y, ChainEnds f data.size e y ↔ y = x) ∧ all = .matched (pattern.length + k) x) ∧
    (∀ b rest, pattern = b :: rest → Op.ofByte b ≠ .group → Op.ofByte b ≠ .option →
      let taken := (data.toList.drop d).takeWhile (accepts (Op.ofByte b) b rest)
      all = if taken = [] then .mismatched 0 d
        else .matched (pattern.length + k) (d + taken.length)) := by
  intro bounds f all
  have hcases := h.matchFrom_cases limit hk hd
  refine ⟨?_, ?_, ?_⟩
  · intro pn x hmismatch
    rcases hcases with ⟨-, -, -, hall⟩ | ⟨pn', e, y, hmatched, -⟩
    · exact hall
    · cases hmismatch.symm.trans hmatched
  · intro pn e hmatch
    rcases hcases with ⟨pn', y, hmismatched, -⟩ | ⟨pn', e', x, hmatched, hend, hall⟩
    · cases hmatch.symm.trans hmismatched
    · obtain ⟨-, rfl⟩ := Verdict.matched.inj (hmatch.symm.trans hmatched)
      refine ⟨x, fun y => ⟨fun hy => hy.unique hend, ?_⟩, hall⟩
      rintro rfl
      exact hend
  · rintro b rest rfl hg ho
    exact h.matchFrom_run hg ho limit hk hd

/-- `[(a+)~b]++` on `aaxbabc`: the option takes `aaxb`, then `ab`, and then nothing, as its group
fails at the `c`. -/
theorem matchFrom_repeated_option :
    let pattern : Bytes := [91, 40, 97, 43, 41, 126, 98, 93]
    let data : Array UInt8 := #[97, 97, 120, 98, 97, 98, 99]
    let f (x : Nat) := matchFrom { maxOps := none, nesting := 2 } pattern 0 data x
    (IsElement 2 pattern ∧ 0 < 2 ∧ 0 < data.size) ∧
      f 0 = .matched 8 4 ∧ (∀ y, ChainEnds f data.size 4 y ↔ y = 6) ∧
      matchFrom { maxOps := none, nesting := 2 } (pattern ++ List.replicate 2 Byte.plus) 0 data 0 =
        .matched 10 6 := by
  intro pattern data f
  have helement : IsElement 2 pattern :=
    { accepted := check_eq_ok (by decide +kernel)
      complete := by cbv
      head_ne_plus := by decide
      head_ne_scan := by decide
      ne_escape := by decide
      no_boundary := by decide +kernel }
  have hfirst : f 0 = .matched 8 4 := by decide +kernel
  have hall : matchFrom { maxOps := none, nesting := 2 } (pattern ++ List.replicate 2 Byte.plus) 0
      data 0 = .matched 10 6 := by decide +kernel
  obtain ⟨x, hchain, hrepeated⟩ :=
    (matchFrom_repeated helement (k := 2) (by decide) (by decide : 0 < data.size)).2.1 8 4 hfirst
  obtain ⟨-, rfl⟩ := Verdict.matched.inj (hall.symm.trans hrepeated)
  exact ⟨⟨helement, by decide, by decide⟩, hfirst, hchain, hall⟩

end

end LinearPattern
