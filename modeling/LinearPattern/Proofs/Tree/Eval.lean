import LinearPattern.Match.Verdict
import LinearPattern.Proofs.Tree.Basic

/-!
# What a pattern tree matches

The meaning of a pattern, item by item, with no reading of its bytes.

* `Test.holds`: whether a test accepts a byte;
* `Result`: how far the pattern and the data are read, `again` and `retried`: the meaning of `+`;
* `Element.eval`, `Items.eval`: an element and a sequence at one position of the data;
* `Items.meaning`: a whole pattern.

The positions in the pattern are counted from where its bytes would start; nothing depends on them
but the verdict.
-/

namespace LinearPattern.Tree

/-- Whether a test accepts a byte of the data. -/
def Test.holds : Test → UInt8 → Bool
  | .any, _ => true
  | .nonBlank, c => !Byte.isBlank c
  | .blank, c => Byte.isBlank c
  | .newline, c => Byte.isNewline c
  | .letter, c => Byte.isLetter c
  | .digit, c => Byte.isDigit c
  | .literal b _, c => c == b
  | .escaped b, c => c == b
  | .set body _, c => ByteSet.contains body c

/-- A test is not a block. -/
theorem Test.opener_single (t : Test) :
    Op.ofByte (Element.byte t).opener ≠ .group ∧ Op.ofByte (Element.byte t).opener ≠ .option := by
  cases t with
  | literal b h =>
    show Op.ofByte b ≠ .group ∧ Op.ofByte b ≠ .option
    rw [Op.ofByte_of_not_isOperator h]
    exact ⟨nofun, nofun⟩
  | _ => exact ⟨nofun, nofun⟩

/-- The bytes of a test accept what the test accepts. -/
theorem Test.accepts_eq (t : Test) (rest : Bytes) (c : UInt8) :
    accepts (Op.ofByte (Element.byte t).opener) (Element.byte t).opener
      ((Element.byte t).operand ++ rest) c = t.holds c := by
  cases t with
  | literal b h =>
    show accepts (Op.ofByte b) b rest c = (c == b)
    rw [Op.ofByte_of_not_isOperator h]
    rfl
  | set body h =>
    show ByteSet.contains ((body ++ [Byte.setClose]) ++ rest) c = ByteSet.contains body c
    rw [List.append_assoc, List.singleton_append, ByteSet.contains_append h]
  | _ => rfl

/-- How far a part of a pattern comes: a position in the pattern and one in the data. -/
inductive Result
  /-- The part is passed, or there is no data left for what is behind the first position. -/
  | reached (p d : Nat)
  /-- What is at the first position does not match at the second. -/
  | failed (p d : Nat)
  /-- A boundary ended the whole match. -/
  | ended (p d : Nat)
  deriving DecidableEq

namespace Result

def isFailed : Result → Bool
  | .failed _ _ => true
  | _ => false

/-- Goes on behind what is passed. -/
def andThen (r : Result) (next : Nat → Nat → Result) : Result :=
  match r with
  | .reached p d => next p d
  | .failed p d => .failed p d
  | .ended p d => .ended p d

end Result

/-- An element that has matched once is repeated until it fails, stands still or has no data left.
The position `p` is the one behind its `+`. -/
def again (once : Nat → Result) (p size d : Nat) : Result :=
  if d < size then
    match once d with
    | .reached _ e => if d < e then again once p size e else .reached p d
    | .failed _ _ => .reached p d
    | .ended q e => .ended q e
  else .reached p d
termination_by size - d

/-- An element with `n` times `+` behind it has to match once, and with any `+` it matches as often
as it can. -/
def retried (once : Nat → Result) (n size d : Nat) : Result :=
  match n with
  | 0 => once d
  | n + 1 => (once d).andThen fun p e => again once (p + (n + 1)) size e

mutual

/-- An element at position `p` of the pattern and `d` of the data.  A block may be entered if there
is room for it; if not, it fails.  An option whose block fails matches nothing. -/
def Element.eval (data : Array UInt8) (room p : Nat) : Element → Nat → Result
  | .byte t, d =>
    match data[d]? with
    | none => .failed p d
    | some c => if t.holds c then .reached (p + t.render.length) (d + 1) else .failed p d
  | .group body, d =>
    match room with
    | 0 => .failed p d
    | inner + 1 =>
      match Items.eval data none inner true (p + 1) body d with
      | .reached _ e => .reached (p + (Element.group body).render.length) e
      | .failed q e => .failed q e
      | .ended q e => .ended q e
  | .option body, d =>
    match room with
    | 0 => .reached (p + (Element.option body).render.length) d
    | inner + 1 =>
      match Items.eval data none inner true (p + 1) body d with
      | .reached _ e => .reached (p + (Element.option body).render.length) e
      | .failed _ _ => .reached (p + (Element.option body).render.length) d
      | .ended q e => .ended q e

/-- Whether the first item of a sequence fails, with its `+`. -/
def Items.headFails (data : Array UInt8) (room p : Nat) : Items → Nat → Bool
  | .element e n _, d => (retried (Element.eval data room p e) n data.size d).isFailed
  | _, _ => false

/-- The items of a sequence, one after another.  A boundary at the start of a block is skipped, any
other one ends the whole match.  Every other item is left alone with no data or no budget left.  A
scan goes on at the first position at which the item behind it does not fail. -/
def Items.eval (data : Array UInt8) (ops : Option Nat) (room : Nat) (start : Bool) (p : Nat) :
    Items → Nat → Result
  | .nil, d => .reached p d
  | .boundary items, d =>
    if start then Items.eval data ops room false (p + 1) items d else .ended (p + 1) d
  | .element e n items, d =>
    if data.size ≤ d ∨ ops = some 0 then .reached p d
    else
      (retried (Element.eval data room p e) n data.size d).andThen fun q x =>
        Items.eval data (spend ops) room false q items x
  | .scan n items, d =>
    if data.size ≤ d ∨ ops = some 0 then .reached p d
    else if items.isNil then Items.eval data (spend ops) room false (p + (n + 1)) items d
    else
      let x := firstFrom (fun x => !Items.headFails data room (p + (n + 1)) items x) data.size d
      if x < data.size then Items.eval data (spend ops) room false (p + (n + 1)) items x
      else .failed p d
  | .plus items, d =>
    if data.size ≤ d ∨ ops = some 0 then .reached p d
    else Items.eval data (spend ops) room false (p + 1) items d

end

/-- Without any budget left, a sequence has nothing to fail at. -/
theorem Items.isFailed_eval_spent (data : Array UInt8) (room d : Nat) :
    ∀ (items : Items) (start : Bool) (p : Nat),
      (items.eval data (some 0) room start p d).isFailed = false
  | .nil, _, _ => rfl
  | .boundary items, true, p => isFailed_eval_spent data room d items false (p + 1)
  | .boundary _, false, _ => rfl
  | .element _ _ _, _, _ => by
    rw [Items.eval, if_pos (.inr rfl)]
    rfl
  | .scan _ _, _, _ => by
    rw [Items.eval, if_pos (.inr rfl)]
    rfl
  | .plus _, _, _ => by
    rw [Items.eval, if_pos (.inr rfl)]
    rfl

theorem Result.isFailed_andThen {r : Result} {next : Nat → Nat → Result}
    (h : ∀ p d, (next p d).isFailed = false) : (r.andThen next).isFailed = r.isFailed := by
  cases r with
  | reached p d => exact h p d
  | failed p d => rfl
  | ended p d => rfl

/-- With a budget of one item, a sequence fails where its first item does. -/
theorem Items.isFailed_eval_one {data : Array UInt8} {room d : Nat} (hd : d < data.size)
    (start : Bool) (p : Nat) {items : Items} (hscan : items.startsWithScan = false)
    (hboundary : items.startsWithBoundary = false) :
    (items.eval data (some 1) room start p d).isFailed = items.headFails data room p d := by
  have hgo : ¬(data.size ≤ d ∨ some 1 = some 0) := by
    rintro (hle | hone)
    · exact Nat.not_lt.mpr hle hd
    · cases hone
  cases items with
  | nil => rfl
  | boundary items => cases hboundary
  | element e n items =>
    rw [Items.eval, if_neg hgo]
    exact Result.isFailed_andThen fun q x => isFailed_eval_spent data room x items false q
  | scan n items => cases hscan
  | plus items =>
    rw [Items.eval, if_neg hgo]
    exact isFailed_eval_spent data room d items false (p + 1)

/-! ### Whole patterns -/

/-- Whether the first item of a sequence needs a byte of the data. -/
def Items.needsByte : Items → Bool
  | .element (.option _) _ _ => false
  | .element _ _ _ => true
  | .scan _ items => !items.isNil
  | _ => false

/-- What is behind a leading boundary, and its position. -/
def Items.behindBoundary : Items → Nat × Items
  | .boundary items => (1, items)
  | items => (0, items)

/-- A whole pattern from a position of the data on.  With no data left, it fails if the first item
behind a leading boundary needs a byte, unless there is no budget to try that item. -/
def Items.meaning (bounds : Bounds) (items : Items) (data : Array UInt8) (d : Nat) : Result :=
  let (p, rest) := items.behindBoundary
  if d = data.size ∧ bounds.maxOps ≠ some 0 ∧ rest.needsByte then .failed p d
  else Items.eval data bounds.maxOps bounds.nesting true 0 items d

/-- The verdict that a result is. -/
def Result.verdict : Result → Verdict
  | .reached p d => .matched p d
  | .failed p d => .mismatched p d
  | .ended p d => .matched p d

end LinearPattern.Tree
