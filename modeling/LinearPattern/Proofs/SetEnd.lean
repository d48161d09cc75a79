import LinearPattern.Proofs.ByteSet

/-!
# Where a set ends

A set is read in two ways.  One reader passes over it and only looks for its close; the other one
tests a byte, joins members into ranges, and stops as soon as it knows the answer.  Both come to the
same end of the set, whatever the byte is and whatever follows the set.

* `listing`, `membership`: the test of a byte, together with the places at which it reads a member
  (`listing_answer`, `membership_answer`);
* `setEnd?_agrees`: what the end of a set says about the test.

At every place where the test reads a member, also at the one that it looks ahead to behind a dash,
the set ends where it ends from its start on (`afterSet?_of_mem_listing`).
-/

namespace LinearPattern.ByteSet

/-! ### Tests with the members that they read -/

/-- An answer, and the places of the members that were read for it. -/
structure Reading where
  answer : Bool
  places : List Bytes

/-- A reading of some members that ends with a hit, or goes on behind them. -/
def Reading.of (places : List Bytes) (hit : Bool) (later : Reading) : Reading :=
  if hit then ⟨true, places⟩ else ⟨later.answer, places ++ later.places⟩

/-- The place of the next member, unless the pattern ends first. -/
def upcoming : Bytes → List Bytes
  | [] => []
  | b :: rest => [b :: rest]

/-- The test of whether the members of a body list the byte `c`, with the places of the members that
it reads.  Behind a dash it reads the member that may be the upper end of a range; it reads that
member a second time if it is none. -/
def listing (c : UInt8) (low : Option UInt8) : Bytes → Reading
  | [] => ⟨false, []⟩
  | b :: rest =>
    match readToken b rest with
    | .close => ⟨false, [b :: rest]⟩
    | .cut => ⟨false, [b :: rest]⟩
    | .nonAscii => .of [b :: rest] (!Byte.isAscii c) (listing c none (afterToken b rest))
    | .byte x =>
      match if b == Byte.dash then low else none with
      | none =>
        .of [b :: rest] (Byte.isAscii c && c == x) (listing c (some x) (afterToken b rest))
      | some lowest =>
        match rangeEnd? rest with
        | none => .of ((b :: rest) :: upcoming rest) (c == Byte.dash) (listing c none rest)
        | some high =>
          .of ((b :: rest) :: upcoming rest) (Byte.isAscii c && lowest ≤ c && c ≤ high)
            (listing c none (afterFirst rest))
termination_by body => body.length
decreasing_by
  all_goals
    have := (afterToken_suffix b rest).length_le
    have := (afterFirst_suffix rest).length_le
    simp only [List.length_cons]
    omega

/-- The same reading with the other answer. -/
def Reading.negated (r : Reading) : Reading := { r with answer := !r.answer }

/-- The test of whether a byte belongs to the set with this body, with the places of the members
that it reads. -/
def membership (body : Bytes) (c : UInt8) : Reading :=
  if body.head? = some Byte.nonBlank then (listing c none body.tail).negated
  else listing c none body

section

variable {places : List Bytes} {hit : Bool} {later : Reading} {ps : Bytes}

@[simp] theorem Reading.answer_of :
    (Reading.of places hit later).answer = (hit || later.answer) := by
  cases hit <;> rfl

theorem Reading.mem_places_of (h : ps ∈ (Reading.of places hit later).places) :
    ps ∈ places ∨ ps ∈ later.places := by
  cases hit with
  | true => exact .inl h
  | false => exact List.mem_append.mp h

theorem eq_of_mem_upcoming {rest : Bytes} (h : ps ∈ upcoming rest) : ps = rest := by
  cases rest with
  | nil => cases h
  | cons b rest => exact List.mem_singleton.mp h

end

/-- The answer is that of the test. -/
theorem listing_answer (c : UInt8) (low : Option UInt8) (body : Bytes) :
    (listing c low body).answer = lists c low body := by
  fun_induction listing c low body with
  | case1 => rw [lists]
  | case2 low b rest hread =>
    rw [lists.eq_def]
    simp only [hread]
  | case3 low b rest hread =>
    rw [lists.eq_def]
    simp only [hread]
  | case4 low b rest hread ih =>
    rw [Reading.answer_of, ih, lists.eq_def c low]
    simp only [hread]
  | case5 low b rest x hread hlow ih =>
    rw [dite_eq_ite] at hlow
    rw [Reading.answer_of, ih, lists.eq_def c low]
    simp only [hread, hlow]
  | case6 low b rest x hread lowest hlow hend ih =>
    rw [dite_eq_ite] at hlow
    rw [Reading.answer_of, ih, lists.eq_def c low]
    simp only [hread, hlow, hend]
  | case7 low b rest x hread lowest hlow high hend ih =>
    rw [dite_eq_ite] at hlow
    rw [Reading.answer_of, ih, lists.eq_def c low]
    simp only [hread, hlow, hend]

theorem membership_answer (body : Bytes) (c : UInt8) :
    (membership body c).answer = contains body c := by
  cases body with
  | nil => exact listing_answer c none []
  | cons b members =>
    rw [membership, List.head?_cons, List.tail_cons]
    split
    · next hb =>
      obtain rfl := Option.some.inj hb
      exact congrArg (! ·) (listing_answer c none members)
    · next hb =>
      rw [contains_of_ne fun h => hb (congrArg some h)]
      exact listing_answer c none (b :: members)

/-! ### Where the members are -/

section

variable {b : UInt8} {rest : Bytes}

theorem readToken_eq_close (h : readToken b rest = .close) : b = Byte.setClose := by
  unfold readToken at h
  split at h
  · rfl
  · cases h
  · split at h <;> cases h
  · split at h <;> cases h
  · cases h

/-- Behind a member a set ends where it ends in front of it. -/
theorem afterSet?_afterToken (h : readToken b rest ≠ .close) :
    afterSet? (afterToken b rest) = afterSet? (b :: rest) := by
  have hb : b ≠ Byte.setClose := by
    rintro rfl
    exact h (readToken_setClose rest)
  rw [afterSet?_cons, if_neg (by simpa using hb), afterToken]
  split <;> rfl

theorem afterSet?_dash (rest : Bytes) : afterSet? rest = afterSet? (Byte.dash :: rest) :=
  afterSet?_afterToken (b := Byte.dash) nofun

theorem afterSet?_afterFirst {high : UInt8} (h : rangeEnd? rest = some high) :
    afterSet? (afterFirst rest) = afterSet? rest := by
  cases rest with
  | nil => cases h
  | cons b rest =>
    refine afterSet?_afterToken fun hclose => ?_
    rw [rangeEnd?, hclose] at h
    cases h

end

section

variable {b : UInt8} {rest ps : Bytes} {hit : Bool} {later : Reading}

/-- One member that is read, and then others from behind it. -/
theorem afterSet?_of_mem_one (hread : readToken b rest ≠ .close)
    (hlater : ps ∈ later.places → afterSet? ps = afterSet? (afterToken b rest))
    (h : ps ∈ (Reading.of [b :: rest] hit later).places) :
    afterSet? ps = afterSet? (b :: rest) := by
  rcases Reading.mem_places_of h with h | h
  · rw [List.mem_singleton.mp h]
  · rw [hlater h, afterSet?_afterToken hread]

/-- A dash that is read with the member behind it, and then others from behind one of the two. -/
theorem afterSet?_of_mem_dash
    (hlater : ps ∈ later.places → afterSet? ps = afterSet? rest)
    (h : ps ∈ (Reading.of ((Byte.dash :: rest) :: upcoming rest) hit later).places) :
    afterSet? ps = afterSet? (Byte.dash :: rest) := by
  rcases Reading.mem_places_of h with h | h
  · rcases List.mem_cons.mp h with rfl | h
    · rfl
    · rw [eq_of_mem_upcoming h, afterSet?_dash]
  · rw [hlater h, afterSet?_dash]

end

/-- Where the test reads a member, the set ends where it ends from its start on. -/
theorem afterSet?_of_mem_listing {c : UInt8} {low : Option UInt8} {body ps : Bytes}
    (h : ps ∈ (listing c low body).places) : afterSet? ps = afterSet? body := by
  fun_induction listing c low body with
  | case1 => cases h
  | case2 low b rest hread => rw [List.mem_singleton.mp h]
  | case3 low b rest hread => rw [List.mem_singleton.mp h]
  | case4 low b rest hread ih => exact afterSet?_of_mem_one (by simp [hread]) ih h
  | case5 low b rest x hread hlow ih => exact afterSet?_of_mem_one (by simp [hread]) ih h
  | case6 low b rest x hread lowest hlow hend ih =>
    obtain ⟨rfl, -⟩ := lower_eq_some hlow
    exact afterSet?_of_mem_dash ih h
  | case7 low b rest x hread lowest hlow high hend ih =>
    obtain ⟨rfl, -⟩ := lower_eq_some hlow
    exact afterSet?_of_mem_dash (fun hlater => (ih hlater).trans (afterSet?_afterFirst hend)) h

/-- A caret at the start of a set does not move its end. -/
theorem afterSet?_of_mem_membership {c : UInt8} {body ps : Bytes}
    (h : ps ∈ (membership body c).places) : afterSet? ps = afterSet? body := by
  rw [membership] at h
  split at h
  · next hcaret =>
    obtain ⟨members, rfl⟩ := List.head?_eq_some_iff.mp hcaret
    have hmember : afterSet? (afterToken Byte.nonBlank members) = _ := afterSet?_afterToken nofun
    exact (afterSet?_of_mem_listing h).trans hmember
  · exact afterSet?_of_mem_listing h

/-- A close that the test reads is the one that the set ends with. -/
theorem afterSet?_of_close {b : UInt8} {rest : Bytes} (h : readToken b rest = .close) :
    afterSet? (b :: rest) = some rest := by
  rw [readToken_eq_close h, afterSet?_cons, if_pos (beq_self_eq_true _)]

/-! ### Positions -/

/-- **The two readers of a set agree on its end.**  Where a set is passed over, its end is behind
its start and in the pattern; a byte belongs to the set whatever follows that end, the set ends
there whatever follows, and no close is read by the test but the one in front of it.  Where a set is
not closed, the test reads no close, neither from the start of the set nor from behind the caret
there. -/
theorem setEnd?_agrees (pattern : Bytes) (p : Nat) (c : UInt8) :
    let body := pattern.drop p
    (∀ q, setEnd? pattern p = some q →
      p < q ∧ q ≤ pattern.length ∧
        (∀ more, contains body c = contains ((pattern.take q ++ more).drop p) c ∧
          setEnd? (pattern.take q ++ more) p = some q) ∧
        ∀ b rest, b :: rest ∈ (membership body c).places → readToken b rest = .close →
          pattern.length - rest.length = q) ∧
      (setEnd? pattern p = none →
        ∀ r ∈ [listing c none body, membership body c], ∀ b rest, b :: rest ∈ r.places →
          readToken b rest ≠ .close) ∧
      (listing c none body).answer = lists c none body ∧
      (membership body c).answer = contains body c := by
  intro body
  refine ⟨fun q hq => ?_, fun hnone r hr b rest hmem hread => ?_, listing_answer c none body,
    membership_answer body c⟩
  · obtain ⟨rest, hrest, rfl⟩ := Option.map_eq_some_iff.mp hq
    obtain ⟨members, hbody, hclosed⟩ := exists_closed_of_afterSet? hrest
    have hlength : pattern.length = p + (members.length + 1 + rest.length) := by
      have hlen := congrArg List.length hbody
      simp only [List.length_drop, List.length_append, List.length_cons] at hlen
      omega
    have hend : pattern.length - rest.length = p + (members.length + 1) := by omega
    have hdrop (more : Bytes) : (pattern.take (pattern.length - rest.length) ++ more).drop p =
        members ++ Byte.setClose :: more := by
      rw [hend, List.drop_append_of_le_length (by rw [List.length_take]; omega), List.drop_take,
        hbody, Nat.add_sub_cancel_left, List.append_cons, List.take_left' (by simp),
        List.append_assoc]
      rfl
    refine ⟨by omega, Nat.sub_le _ _, fun more => ⟨?_, ?_⟩, fun b tail hmem hread => ?_⟩
    · rw [hdrop, contains_append hclosed]
      exact (congrArg (contains · c) hbody).trans (contains_append hclosed c rest)
    · rw [setEnd?, hdrop, hclosed.afterSet?_eq, Option.map_some, List.length_append,
        List.length_take]
      congr 1
      omega
    · have hsame := afterSet?_of_mem_membership hmem
      rw [afterSet?_of_close hread, hrest] at hsame
      rw [Option.some.inj hsame]
  · have hend : afterSet? body = none := Option.map_eq_none_iff.mp hnone
    have hsame : afterSet? (b :: rest) = afterSet? body := by
      simp only [List.mem_cons, List.not_mem_nil, or_false] at hr
      rcases hr with rfl | rfl
      · exact afterSet?_of_mem_listing hmem
      · exact afterSet?_of_mem_membership hmem
    rw [afterSet?_of_close hread, hend] at hsame
    cases hsame

/-- In `{!-@}}x` the member `@}`, which the test of `0` looks ahead to from the dash, is no close
but the upper end `=` of the range, and the set ends behind the brace after it; in `{a-@` the half
member that the test of `b` looks ahead to is no close, either. -/
theorem setEnd?_agrees_folded :
    let pattern : Bytes := [123, 33, 45, 64, 125, 125, 120]
    let cut : Bytes := [123, 97, 45, 64]
    (setEnd? pattern 1 = some 6 ∧
        contains (pattern.drop 1) 48 = contains ((pattern.take 6 ++ [93, 125]).drop 1) 48 ∧
        (membership (pattern.drop 1) 48).places =
          [pattern.drop 1, pattern.drop 2, pattern.drop 3]) ∧
      setEnd? cut 1 = none ∧ [64] ∈ (membership (cut.drop 1) 98).places ∧
        readToken 64 [] ≠ .close := by
  intro pattern cut
  have hclosed : setEnd? pattern 1 = some 6 := by decide +kernel
  have hopen : setEnd? cut 1 = none := by decide +kernel
  have hread : [64] ∈ (membership (cut.drop 1) 98).places := by decide +kernel
  refine ⟨⟨hclosed, ?_, by decide +kernel⟩, hopen, hread, ?_⟩
  · exact (((setEnd?_agrees pattern 1 48).1 6 hclosed).2.2.1 [93, 125]).1
  · exact (setEnd?_agrees cut 1 98).2.1 hopen _ (by simp) 64 [] hread

end LinearPattern.ByteSet
