import LinearPattern.Proofs.ByteSet
import LinearPattern.Proofs.Indexed.Extent

/-!
# Membership in a set, found by position

The members of a set are read by position here (`memberAt`, `rangeEnd`, `lists`, `contains`).  Only
the first byte of a member is asked for, and a loop does so in front of the end of the pattern; the
byte behind a backslash or an at sign may be missing.  So the answer is always that of
`ByteSet.contains` (`contains_eq`).
-/

namespace LinearPattern.Indexed

open ByteSet (Token readToken afterToken afterFirst)

/-! ### Members -/

/-- The member that starts at `p`, and the position behind it. -/
def memberAt (pattern : Bytes) (p : Nat) : Except OutOfRange (Token × Nat) := do
  let b ← byteAt pattern p
  match b with
  | Byte.setClose => return (.close, p + 1)
  | Byte.any => return (.nonAscii, p + 1)
  | Byte.escape =>
    match pattern[p + 1]? with
    | none => return (.cut, p + 1)
    | some x => return (.byte x, p + 2)
  | Byte.letter =>
    match pattern[p + 1]? with
    | none => return (.cut, p + 1)
    | some x => return (.byte (x ^^^ 0x40), p + 2)
  | _ => return (.byte b, p + 1)

theorem memberAt_of_drop {pattern rest : Bytes} {b : UInt8} {p : Nat}
    (h : pattern.drop p = b :: rest) :
    memberAt pattern p = .ok (readToken b rest, pattern.length - (afterToken b rest).length) := by
  have hlt := lt_of_drop h
  have hget : pattern[p + 1]? = rest.head? := by rw [← List.head?_drop, drop_succ_of_drop h]
  have hone := (position_rest h).symm
  rw [memberAt, byteAt_of_drop h, ok_bind, hget]
  split
  · rw [hone]
    rfl
  · rw [hone]
    rfl
  · cases rest with
    | nil =>
      rw [hone]
      rfl
    | cons x tail =>
      rw [List.length_cons] at hone
      rw [show p + 2 = pattern.length - tail.length by omega]
      rfl
  · cases rest with
    | nil =>
      rw [hone]
      rfl
    | cons x tail =>
      rw [List.length_cons] at hone
      rw [show p + 2 = pattern.length - tail.length by omega]
      rfl
  · next hclose hany hescape hletter =>
    have htoken : readToken b rest = .byte b := by
      unfold readToken
      split
      · exact absurd rfl hclose
      · exact absurd rfl hany
      · exact absurd rfl hescape
      · exact absurd rfl hletter
      · rfl
    have hoperand : Byte.takesOperand b = false := by
      rw [Byte.takesOperand, Bool.or_eq_false_iff, beq_eq_false_iff_ne, beq_eq_false_iff_ne]
      exact ⟨hescape, hletter⟩
    rw [htoken, afterToken, hoperand, if_neg Bool.false_ne_true, hone]
    rfl

theorem lt_memberAt {pattern : Bytes} {p q : Nat} {token : Token}
    (h : memberAt pattern p = .ok (token, q)) : p < q := by
  cases hdrop : pattern.drop p with
  | nil =>
    rw [memberAt, byteAt_of_drop_nil hdrop] at h
    cases h
  | cons b rest =>
    rw [memberAt_of_drop hdrop] at h
    obtain ⟨-, rfl⟩ := Prod.mk.inj (Except.ok.inj h)
    have := (ByteSet.afterToken_suffix b rest).length_le
    have := length_of_drop hdrop
    rw [List.length_cons] at this
    omega

/-- The upper end of a range whose dash is in front of `p`, and the position behind it. -/
def rangeEnd (pattern : Bytes) (p : Nat) : Except OutOfRange (Option (UInt8 × Nat)) :=
  if pattern.length ≤ p then return none
  else do
    match ← memberAt pattern p with
    | (.byte high, q) => return some (high, q)
    | (.nonAscii, q) => return some (Byte.any, q)
    | _ => return none

theorem rangeEnd_eq (pattern : Bytes) (p : Nat) :
    rangeEnd pattern p =
      .ok ((ByteSet.rangeEnd? (pattern.drop p)).map fun high =>
        (high, pattern.length - (afterFirst (pattern.drop p)).length)) := by
  rw [rangeEnd]
  cases hdrop : pattern.drop p with
  | nil =>
    rw [if_pos (List.drop_eq_nil_iff.mp hdrop)]
    rfl
  | cons b rest =>
    rw [if_neg (Nat.not_le.mpr (lt_of_drop hdrop)), memberAt_of_drop hdrop, ok_bind,
      ByteSet.rangeEnd?, afterFirst]
    cases readToken b rest <;> rfl

theorem lt_rangeEnd {pattern : Bytes} {p q : Nat} {high : UInt8}
    (h : rangeEnd pattern p = .ok (some (high, q))) : p < q := by
  rw [rangeEnd] at h
  split at h
  · cases h
  · obtain ⟨⟨token, r⟩, hmember, h⟩ := bind_eq_ok.mp h
    have hlt := lt_memberAt hmember
    cases token <;> cases h
    · exact hlt
    · exact hlt

/-! ### Sets -/

/-- A loop that may stop with a hit comes to a hit now or to what comes later. -/
theorem ite_ok_true (hit later : Bool) :
    (if hit then pure true else .ok later : Except OutOfRange Bool) = .ok (hit || later) := by
  cases hit
  · rfl
  · rfl

/-- Whether the members from `p` on list the byte `c`. -/
def lists (pattern : Bytes) (c : UInt8) (low : Option UInt8) (p : Nat) : Except OutOfRange Bool :=
  if p < pattern.length then do
    let raw ← byteAt pattern p
    andThen (memberAt pattern p) fun member hmember =>
      have : p < member.2 := lt_memberAt hmember
      match member.1 with
      | .close => return false
      | .cut => return false
      | .nonAscii => if !Byte.isAscii c then return true else lists pattern c none member.2
      | .byte x =>
        match if raw == Byte.dash then low else none with
        | none =>
          if Byte.isAscii c && c == x then return true else lists pattern c (some x) member.2
        | some lowest =>
          andThen (rangeEnd pattern member.2) fun upper hupper =>
            match upper, hupper with
            | none, _ => if c == Byte.dash then return true else lists pattern c none member.2
            | some (high, q), hupper =>
              have : member.2 < q := lt_rangeEnd hupper
              if Byte.isAscii c && lowest ≤ c && c ≤ high then return true
              else lists pattern c none q
  else return false
termination_by pattern.length - p

theorem lists_eq (pattern : Bytes) (c : UInt8) (low : Option UInt8) (p : Nat) :
    lists pattern c low p = .ok (ByteSet.lists c low (pattern.drop p)) := by
  rw [lists.eq_def]
  cases hdrop : pattern.drop p with
  | nil =>
    rw [read_of_drop_nil hdrop, ByteSet.lists]
    rfl
  | cons b rest =>
    have hlt := lt_of_drop hdrop
    have hq := lt_memberAt (memberAt_of_drop hdrop)
    have hafter := drop_of_suffix_rest hdrop (ByteSet.afterToken_suffix b rest)
    rw [read_of_drop hdrop, andThen_ok (memberAt_of_drop hdrop), ByteSet.lists.eq_def]
    simp only
    cases readToken b rest with
    | close => rfl
    | cut => rfl
    | nonAscii =>
      simp only
      rw [lists_eq pattern c none _, ite_ok_true, hafter]
    | byte x =>
      simp only
      cases hlow : if b == Byte.dash then low else none with
      | none =>
        simp only
        rw [lists_eq pattern c (some x) _, ite_ok_true, hafter]
      | some lowest =>
        -- only a dash has a lower end in front of it, and it is a member of one byte
        have hdash : b = Byte.dash := beq_iff_eq.mp (Option.ite_none_right_eq_some.mp hlow).1
        subst hdash
        have hone : p < pattern.length - rest.length := hq
        have hbody : pattern.drop (pattern.length - rest.length) = rest := hafter
        have hupper := rangeEnd_eq pattern (pattern.length - rest.length)
        rw [hbody] at hupper
        rw [show afterToken Byte.dash rest = rest from rfl]
        simp only
        cases hrange : ByteSet.rangeEnd? rest with
        | none =>
          rw [hrange, Option.map_none] at hupper
          rw [andThen_ok hupper]
          simp only
          rw [lists_eq pattern c none _, ite_ok_true, hbody]
        | some high =>
          rw [hrange, Option.map_some] at hupper
          have hlater : pattern.length - rest.length < _ := lt_rangeEnd hupper
          have hbehind := drop_of_suffix_rest hdrop (ByteSet.afterFirst_suffix rest)
          rw [andThen_ok hupper]
          simp only
          rw [lists_eq pattern c none _, ite_ok_true, hbehind]
termination_by pattern.length - p

/-- Whether the byte `c` belongs to the set whose body starts at `p`. -/
def contains (pattern : Bytes) (p : Nat) (c : UInt8) : Except OutOfRange Bool := do
  let exclusive := pattern[p]? == some Byte.nonBlank
  let listed ← lists pattern c none (if exclusive then p + 1 else p)
  return listed != exclusive

theorem contains_eq (pattern : Bytes) (p : Nat) (c : UInt8) :
    contains pattern p c = .ok (ByteSet.contains (pattern.drop p) c) := by
  have hget : pattern[p]? = (pattern.drop p).head? := List.head?_drop.symm
  rw [contains, hget]
  simp only [lists_eq, ok_bind, pure_eq_ok]
  cases hdrop : pattern.drop p with
  | nil => simp [hdrop, ByteSet.contains]
  | cons b rest =>
    rw [List.head?_cons, Option.some_beq_some]
    by_cases hb : b = Byte.nonBlank
    · subst hb
      rw [beq_self_eq_true, if_pos rfl, drop_succ_of_drop hdrop, Bool.bne_true]
      rfl
    · rw [beq_eq_false_iff_ne.mpr hb, if_neg Bool.false_ne_true, hdrop, Bool.bne_false,
        ByteSet.contains_of_ne hb]

end LinearPattern.Indexed
