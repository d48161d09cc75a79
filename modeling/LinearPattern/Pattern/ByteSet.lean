import LinearPattern.Pattern.Extent

/-!
# Sets of bytes

The body of a set is a list of members, read up to the close or to the end of the pattern.  A
backslash makes the next byte a member, an at sign the next byte with its bit of value 64 flipped,
and a question mark all bytes that are not ASCII.  A dash between two members makes a range of them.
A leading caret excludes the members instead.

* `Token`, `readToken`, `afterToken`: one member of a body, and what follows it;
* `rangeEnd?`: the upper end of a range, read behind its dash;
* `lists`: whether the members of a body list a byte;
* `contains`: whether a byte belongs to the set with a body;
* `ranges`: the bytes that satisfy a test, as maximal ranges.

Only the question mark lists bytes that are not ASCII.
-/

namespace LinearPattern.ByteSet

/-- One member of the body of a set. -/
inductive Token
  /-- A byte. -/
  | byte (b : UInt8)
  /-- All bytes that are not ASCII. -/
  | nonAscii
  /-- The close of the set. -/
  | close
  /-- A backslash or an at sign at the end of the pattern. -/
  | cut
  deriving DecidableEq

/-- The member that starts with the byte `b`. -/
def readToken (b : UInt8) (rest : Bytes) : Token :=
  match b with
  | Byte.setClose => .close
  | Byte.any => .nonAscii
  | Byte.escape =>
    match rest with
    | [] => .cut
    | x :: _ => .byte x
  | Byte.letter =>
    match rest with
    | [] => .cut
    | x :: _ => .byte (x ^^^ 0x40)
  | _ => .byte b

/-- What follows the member that starts with the byte `b`. -/
def afterToken (b : UInt8) (rest : Bytes) : Bytes :=
  if Byte.takesOperand b then rest.drop 1 else rest

/-- What follows the first member of a body. -/
def afterFirst : Bytes → Bytes
  | [] => []
  | b :: rest => afterToken b rest

theorem afterToken_suffix (b : UInt8) (rest : Bytes) : afterToken b rest <:+ rest := by
  unfold afterToken
  split
  · exact List.drop_suffix 1 rest
  · exact List.suffix_refl rest

theorem afterFirst_suffix (ps : Bytes) : afterFirst ps <:+ ps := by
  cases ps with
  | nil => exact List.suffix_refl []
  | cons b rest => exact (afterToken_suffix b rest).trans (List.suffix_cons b rest)

/-- The upper end of a range whose dash is in front of `ps`: the first member, if it is one.  A
question mark is a byte like any other here; a close and the end of the pattern leave the dash
without an upper end. -/
def rangeEnd? : Bytes → Option UInt8
  | [] => none
  | b :: rest =>
    match readToken b rest with
    | .byte high => some high
    | .nonAscii => some Byte.any
    | .close => none
    | .cut => none

/-- Whether the members of a body list the byte `c`.  `low` is the byte read last, while it may
still be the lower end of a range. -/
def lists (c : UInt8) (low : Option UInt8) : Bytes → Bool
  | [] => false
  | b :: rest =>
    match readToken b rest with
    | .close => false
    | .cut => false
    | .nonAscii => !Byte.isAscii c || lists c none (afterToken b rest)
    | .byte x =>
      match if b == Byte.dash then low else none with
      | none => Byte.isAscii c && c == x || lists c (some x) (afterToken b rest)
      | some lowest =>
        match rangeEnd? rest with
        | none => c == Byte.dash || lists c none rest
        | some high =>
          Byte.isAscii c && lowest ≤ c && c ≤ high || lists c none (afterFirst rest)
termination_by body => body.length
decreasing_by
  all_goals
    have := (afterToken_suffix b rest).length_le
    have := (afterFirst_suffix rest).length_le
    simp only [List.length_cons]
    omega

/-- Whether the byte `c` belongs to the set with this body. -/
def contains (body : Bytes) (c : UInt8) : Bool :=
  match body with
  | Byte.nonBlank :: members => !lists c none members
  | _ => lists c none body

/-- The bytes that satisfy a test, as maximal ranges in ascending order. -/
def ranges (holds : UInt8 → Bool) : List (Nat × Nat) :=
  ((List.range 256).filter fun n => holds (UInt8.ofNat n)).foldr widen []
where
  /-- Puts a number in front of ranges of larger numbers. -/
  widen (n : Nat) : List (Nat × Nat) → List (Nat × Nat)
    | [] => [(n, n)]
    | (low, high) :: above =>
      if low = n + 1 then (n, high) :: above else (n, n) :: (low, high) :: above

end LinearPattern.ByteSet
