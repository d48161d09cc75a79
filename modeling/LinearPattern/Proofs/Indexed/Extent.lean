import LinearPattern.Proofs.Extent

/-!
# How far an element reaches, found by position

A place is the part of a pattern that is still to be read, and reading on from it cannot go wrong.
Someone who holds the whole pattern and a position has to ask for the byte there, and there may be
none.  In this module and the ones beside it the matcher is read in that way: it asks for every byte
by its position (`byteAt`) and for a run of bytes by its two ends (`slice`), and a single request
that is out of range makes all of it an error.

* `byteAt`: the request for one byte;
* `runEnd`, `setEnd?`, `setEnd`, `blockEnd`, `elementEnd`: the loops over positions.

Each loop is equal to the length of what its function of places leaves out (`runEnd_eq`,
`setEnd?_eq`, `setEnd_eq`, `blockEnd_eq`, `elementEnd_eq`), so all its requests are in range.  Only
the first byte of an element has to be there.
-/

namespace LinearPattern.Indexed

/-! ### Requests -/

/-- The byte at a position, which has to be in range. -/
def byteAt (bytes : Bytes) (i : Nat) : Except OutOfRange UInt8 :=
  match bytes[i]? with
  | none => .error ⟨bytes.length, i⟩
  | some b => .ok b

/-- Goes on with a value, and with the knowledge where the value comes from. -/
def andThen {α β : Type} (x : Except OutOfRange α)
    (next : (a : α) → x = .ok a → Except OutOfRange β) : Except OutOfRange β :=
  match x, next with
  | .error e, _ => .error e
  | .ok a, next => next a rfl

theorem andThen_ok {α β : Type} {x : Except OutOfRange α}
    {next : (a : α) → x = .ok a → Except OutOfRange β} {a : α} (h : x = .ok a) :
    andThen x next = next a h := by
  subst h
  rfl

@[simp] theorem ok_bind {α β : Type} (a : α) (next : α → Except OutOfRange β) :
    (Except.ok a >>= next) = next a := rfl

@[simp] theorem pure_eq_ok {α : Type} (a : α) : (pure a : Except OutOfRange α) = .ok a := rfl

/-- A computation that comes to a value has come through each of its parts. -/
theorem bind_eq_ok {α β : Type} {x : Except OutOfRange α} {next : α → Except OutOfRange β} {b : β} :
    (x >>= next) = .ok b ↔ ∃ a, x = .ok a ∧ next a = .ok b := by
  cases x with
  | error e => exact ⟨nofun, fun ⟨_, h, _⟩ => nomatch h⟩
  | ok a => exact ⟨fun h => ⟨a, rfl, h⟩, fun ⟨_, ha, h⟩ => Except.ok.inj ha ▸ h⟩

section

variable {pattern rest : Bytes} {b : UInt8} {p : Nat}

/-- A position at which a byte is left is in range. -/
theorem lt_of_drop (h : pattern.drop p = b :: rest) : p < pattern.length := by
  apply Nat.lt_of_not_le
  intro hp
  rw [List.drop_eq_nil_of_le hp] at h
  cases h

theorem byteAt_of_drop (h : pattern.drop p = b :: rest) : byteAt pattern p = .ok b := by
  have hget : pattern[p]? = some b := by rw [← List.head?_drop, h, List.head?_cons]
  rw [byteAt, hget]

theorem byteAt_of_drop_nil (h : pattern.drop p = []) :
    byteAt pattern p = .error ⟨pattern.length, p⟩ := by
  have hget : pattern[p]? = none := by rw [← List.head?_drop, h, List.head?_nil]
  rw [byteAt, hget]

theorem drop_succ_of_drop (h : pattern.drop p = b :: rest) : pattern.drop (p + 1) = rest := by
  rw [← List.drop_drop, h, List.drop_succ_cons, List.drop_zero]

/-- The position of a place that a pattern ends with. -/
theorem drop_of_suffix (h : rest <:+ pattern) :
    pattern.drop (pattern.length - rest.length) = rest :=
  (List.suffix_iff_eq_drop.mp h).symm

theorem length_of_drop (h : pattern.drop p = rest) : pattern.length - p = rest.length := by
  rw [← h, List.length_drop]

/-- A place behind the byte at `p` is found at its position. -/
theorem drop_of_suffix_rest {ps : Bytes} (h : pattern.drop p = b :: rest) (hs : ps <:+ rest) :
    pattern.drop (pattern.length - ps.length) = ps :=
  drop_of_suffix (hs.trans (drop_succ_of_drop h ▸ List.drop_suffix (p + 1) pattern))

theorem position_rest (h : pattern.drop p = b :: rest) : pattern.length - rest.length = p + 1 := by
  rw [← length_of_drop (drop_succ_of_drop h), Nat.sub_sub_self (lt_of_drop h)]

theorem position_of_drop (h : pattern.drop p = b :: rest) :
    pattern.length - (b :: rest).length = p := by
  rw [← length_of_drop h, Nat.sub_sub_self (Nat.le_of_lt (lt_of_drop h))]

section

variable {α : Type} {next : UInt8 → Except OutOfRange α} {stop : Except OutOfRange α}

/-- A loop reads the byte at its position while there is one. -/
theorem read_of_drop (h : pattern.drop p = b :: rest) :
    (if p < pattern.length then byteAt pattern p >>= next else stop) = next b := by
  rw [if_pos (lt_of_drop h), byteAt_of_drop h]
  rfl

/-- It stops where there is none. -/
theorem read_of_drop_nil (h : pattern.drop p = []) :
    (if p < pattern.length then byteAt pattern p >>= next else stop) = stop :=
  if_neg (Nat.not_lt.mpr (List.drop_eq_nil_iff.mp h))

end

end

/-! ### Runs -/

/-- The first position from `p` on whose byte does not satisfy a test. -/
def runEnd (test : UInt8 → Bool) (pattern : Bytes) (p : Nat) : Except OutOfRange Nat :=
  if p < pattern.length then do
    if test (← byteAt pattern p) then runEnd test pattern (p + 1) else return p
  else return p
termination_by pattern.length - p

theorem runEnd_eq (test : UInt8 → Bool) {pattern : Bytes} {p : Nat} (hp : p ≤ pattern.length) :
    runEnd test pattern p = .ok (pattern.length - ((pattern.drop p).dropWhile test).length) := by
  rw [runEnd]
  cases hdrop : pattern.drop p with
  | nil =>
    rw [read_of_drop_nil hdrop, List.dropWhile_nil,
      Nat.le_antisymm hp (List.drop_eq_nil_iff.mp hdrop)]
    rfl
  | cons b rest =>
    have hlt := lt_of_drop hdrop
    rw [read_of_drop hdrop, List.dropWhile_cons]
    split
    · rw [runEnd_eq test hlt, drop_succ_of_drop hdrop]
    · rw [position_of_drop hdrop]
      rfl
termination_by pattern.length - p

theorem le_runEnd {test : UInt8 → Bool} {pattern : Bytes} {p q : Nat}
    (h : runEnd test pattern p = .ok q) : p ≤ q := by
  rw [runEnd] at h
  split at h
  · next hp =>
    rw [byteAt, List.getElem?_eq_getElem hp] at h
    simp only [ok_bind] at h
    split at h
    · exact Nat.le_of_succ_le (le_runEnd h)
    · exact Nat.le_of_eq (Except.ok.inj h)
  · exact Nat.le_of_eq (Except.ok.inj h)
termination_by pattern.length - p

/-! ### Sets -/

/-- The position behind the set whose body starts at `p`, if the set is closed. -/
def setEnd? (pattern : Bytes) (p : Nat) : Except OutOfRange (Option Nat) :=
  if p < pattern.length then do
    let b ← byteAt pattern p
    if b == Byte.setClose then return some (p + 1)
    else if Byte.takesOperand b then setEnd? pattern (p + 2)
    else setEnd? pattern (p + 1)
  else return none
termination_by pattern.length - p

/-- The position behind the set whose body starts at `p`; an unclosed set takes all that is left. -/
def setEnd (pattern : Bytes) (p : Nat) : Except OutOfRange Nat := do
  return (← setEnd? pattern p).getD pattern.length

theorem setEnd?_eq (pattern : Bytes) (p : Nat) :
    setEnd? pattern p = .ok (LinearPattern.setEnd? pattern p) := by
  rw [setEnd?, LinearPattern.setEnd?]
  cases hdrop : pattern.drop p with
  | nil =>
    rw [read_of_drop_nil hdrop]
    rfl
  | cons b rest =>
    have hlt := lt_of_drop hdrop
    have hnext := drop_succ_of_drop hdrop
    rw [read_of_drop hdrop, afterSet?_cons]
    split
    · rw [Option.map_some, position_rest hdrop]
      rfl
    · split
      · rw [setEnd?_eq pattern (p + 2), LinearPattern.setEnd?, ← hnext, List.drop_drop]
      · rw [setEnd?_eq pattern (p + 1), LinearPattern.setEnd?, hnext]
termination_by pattern.length - p

theorem setEnd_eq (pattern : Bytes) (p : Nat) :
    setEnd pattern p = .ok (LinearPattern.setEnd pattern p) := by
  rw [setEnd, setEnd?_eq, LinearPattern.setEnd?, LinearPattern.setEnd, afterSet]
  cases afterSet? (pattern.drop p) with
  | none => rfl
  | some rest => rfl

theorem drop_setEnd (pattern : Bytes) (p : Nat) :
    pattern.drop (LinearPattern.setEnd pattern p) = afterSet (pattern.drop p) :=
  drop_of_suffix ((afterSet_suffix _).trans (List.drop_suffix p pattern))

theorem lt_setEnd {pattern : Bytes} {p : Nat} (h : p < pattern.length) :
    p < LinearPattern.setEnd pattern (p + 1) := by
  have := (afterSet_suffix (pattern.drop (p + 1))).length_le
  rw [List.length_drop] at this
  unfold LinearPattern.setEnd
  omega

/-! ### Blocks -/

/-- The position behind the block that is `depth` blocks further out than the one whose body starts
at `p`. -/
def blockEnd (pattern : Bytes) (depth p : Nat) : Except OutOfRange Nat :=
  if h : p < pattern.length then do
    let b ← byteAt pattern p
    match Op.ofByte b with
    | .escape => blockEnd pattern depth (p + 2)
    | .set =>
      andThen (setEnd pattern (p + 1)) fun q hq =>
        have : p < q := Except.ok.inj ((setEnd_eq pattern (p + 1)).symm.trans hq) ▸ lt_setEnd h
        blockEnd pattern depth q
    | .group => blockEnd pattern (depth + 1) (p + 1)
    | .option => blockEnd pattern (depth + 1) (p + 1)
    | .close =>
      match depth with
      | 0 => return p + 1
      | outer + 1 => blockEnd pattern outer (p + 1)
    | _ => blockEnd pattern depth (p + 1)
  else return pattern.length
termination_by pattern.length - p

theorem blockEnd_eq (pattern : Bytes) (depth p : Nat) :
    blockEnd pattern depth p =
      .ok (pattern.length - (afterBlock depth (pattern.drop p)).length) := by
  rw [blockEnd.eq_def]
  cases hdrop : pattern.drop p with
  | nil =>
    rw [dif_neg (by simpa using List.drop_eq_nil_iff.mp hdrop), afterBlock]
    rfl
  | cons b rest =>
    have hlt := lt_of_drop hdrop
    have hnext := drop_succ_of_drop hdrop
    rw [dif_pos hlt, byteAt_of_drop hdrop, ok_bind, afterBlock.eq_def]
    have hset := setEnd_eq pattern (p + 1)
    have hq := lt_setEnd hlt
    cases hop : Op.ofByte b with
    | escape =>
      simp only [hop]
      rw [blockEnd_eq pattern depth (p + 2), ← hnext, List.drop_drop]
    | set =>
      simp only [hop]
      rw [andThen_ok hset, blockEnd_eq pattern depth _, drop_setEnd, hnext]
    | group =>
      simp only [hop]
      rw [blockEnd_eq pattern (depth + 1) (p + 1), hnext]
    | option =>
      simp only [hop]
      rw [blockEnd_eq pattern (depth + 1) (p + 1), hnext]
    | close =>
      simp only [hop]
      cases depth with
      | zero => simp only [pure_eq_ok, position_rest hdrop]
      | succ outer =>
        simp only
        rw [blockEnd_eq pattern outer (p + 1), hnext]
    | _ =>
      simp only [hop]
      rw [blockEnd_eq pattern depth (p + 1), hnext]
termination_by pattern.length - p

/-- The position behind the element that starts at `p`; there has to be one. -/
def elementEnd (pattern : Bytes) (p : Nat) : Except OutOfRange Nat := do
  let b ← byteAt pattern p
  match Op.ofByte b with
  | .escape => return min (p + 2) pattern.length
  | .set => setEnd pattern (p + 1)
  | .group => blockEnd pattern 0 (p + 1)
  | .option => blockEnd pattern 0 (p + 1)
  | _ => return p + 1

theorem elementEnd_eq (pattern : Bytes) (p : Nat) :
    elementEnd pattern p = LinearPattern.elementEnd pattern p := by
  rw [elementEnd, LinearPattern.elementEnd]
  cases hdrop : pattern.drop p with
  | nil =>
    rw [byteAt_of_drop_nil hdrop]
    rfl
  | cons b rest =>
    have hlt := lt_of_drop hdrop
    have hnext := drop_succ_of_drop hdrop
    have hlen := length_of_drop hnext
    rw [byteAt_of_drop hdrop, ok_bind]
    simp only [afterElement]
    cases hop : Op.ofByte b with
    | escape =>
      simp only [pure_eq_ok, List.length_drop]
      congr 1
      omega
    | set =>
      simp only
      rw [setEnd_eq, LinearPattern.setEnd, hnext]
    | group =>
      simp only
      rw [blockEnd_eq, hnext]
    | option =>
      simp only
      rw [blockEnd_eq, hnext]
    | _ => simp only [pure_eq_ok, position_rest hdrop]

theorem lt_elementEnd {pattern : Bytes} {p q : Nat} (h : elementEnd pattern p = .ok q) : p < q := by
  rw [elementEnd_eq, LinearPattern.elementEnd] at h
  cases hdrop : pattern.drop p with
  | nil =>
    rw [hdrop] at h
    cases h
  | cons b rest =>
    rw [hdrop] at h
    obtain rfl := Except.ok.inj h
    have := (afterElement_suffix b rest).length_le
    have := length_of_drop hdrop
    rw [List.length_cons] at this
    omega

end LinearPattern.Indexed
