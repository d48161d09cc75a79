import LinearPattern.Proofs.ByteSet
import LinearPattern.Proofs.Extent
import LinearPattern.Proofs.Machine

/-!
# Pattern trees

A pattern without faults, as a tree.

* `Test`: what tests a single byte, `Element`: a test, a group or an option;
* `Items`: a sequence of elements with the `+` behind them, scans, boundaries and `+` that repeat
  nothing;
* `render`: the bytes that a tree is written as;
* `Items.isWellFormed`: no item could be read as a part of the one in front of it.

Reading the bytes of a tree, one comes to its parts: behind the first byte of an element the rest of
that element is passed over (`Element.afterElement_eq`), no run of one byte goes on behind the item
that it is (`Items.head?_ne`), and all of a sequence is read before the close behind it
(`Items.afterBlock_render`).
-/

namespace LinearPattern.Tree

/-- What tests a single byte of the data. -/
inductive Test
  | any
  | nonBlank
  | blank
  | newline
  | letter
  | digit
  /-- A byte that is no operator stands for itself. -/
  | literal (b : UInt8) (h : Byte.isOperator b = false)
  /-- Behind a backslash every byte stands for itself. -/
  | escaped (b : UInt8)
  /-- The members of a set, up to the first close behind them. -/
  | set (body : Bytes) (h : ByteSet.Closed body)

mutual

/-- An element of a pattern, without any `+`. -/
inductive Element
  | byte (t : Test)
  | group (body : Items)
  | option (body : Items)

/-- The items of a block, or of a whole pattern. -/
inductive Items
  | nil
  /-- An element and `n` times `+`. -/
  | element (e : Element) (n : Nat) (items : Items)
  /-- A `~` and `n` more of them. -/
  | scan (n : Nat) (items : Items)
  | boundary (items : Items)
  /-- A `+` with no element in front of it. -/
  | plus (items : Items)

end

/-! ### Rendering -/

/-- The bytes of a test. -/
def Test.render : Test → Bytes
  | .any => [Byte.any]
  | .nonBlank => [Byte.nonBlank]
  | .blank => [Byte.blank]
  | .newline => [Byte.newline]
  | .letter => [Byte.letter]
  | .digit => [Byte.digit]
  | .literal b _ => [b]
  | .escaped b => [Byte.escape, b]
  | .set body _ => Byte.setOpen :: (body ++ [Byte.setClose])

mutual

/-- The bytes of an element. -/
def Element.render : Element → Bytes
  | .byte t => t.render
  | .group body => Byte.groupOpen :: (body.render ++ [Byte.groupClose])
  | .option body => Byte.optionOpen :: (body.render ++ [Byte.optionClose])

/-- The bytes of a sequence. -/
def Items.render : Items → Bytes
  | .nil => []
  | .element e n items => e.render ++ (List.replicate n Byte.plus ++ items.render)
  | .scan n items => List.replicate (n + 1) Byte.scan ++ items.render
  | .boundary items => Byte.boundary :: items.render
  | .plus items => Byte.plus :: items.render

end

/-! ### Well-formed trees -/

/-- The first item is a `+`. -/
def Items.startsWithPlus : Items → Bool
  | .plus _ => true
  | _ => false

/-- The first item is a scan. -/
def Items.startsWithScan : Items → Bool
  | .scan _ _ => true
  | _ => false

/-- The first item is a boundary. -/
def Items.startsWithBoundary : Items → Bool
  | .boundary _ => true
  | _ => false

def Items.isNil : Items → Bool
  | .nil => true
  | _ => false

mutual

def Element.isWellFormed : Element → Bool
  | .byte _ => true
  | .group body => body.isWellFormed
  | .option body => body.isWellFormed

/-- No `+` could be one of the element in front of it, no scan is a part of the one in front of it,
and no scan looks for a boundary. -/
def Items.isWellFormed : Items → Bool
  | .nil => true
  | .element e _ items => e.isWellFormed && !items.startsWithPlus && items.isWellFormed
  | .scan _ items => !items.startsWithScan && !items.startsWithBoundary && items.isWellFormed
  | .boundary items => items.isWellFormed
  | .plus items => items.isWellFormed

end

/-! ### Reading an element -/

/-- The first byte of an element. -/
def Element.opener (e : Element) : UInt8 := e.render.headD Byte.any

/-- What is behind the first byte of an element. -/
def Element.operand (e : Element) : Bytes := e.render.tail

theorem Test.render_ne_nil (t : Test) : t.render ≠ [] := by
  cases t <;> exact List.cons_ne_nil _ _

theorem Element.render_eq (e : Element) : e.render = e.opener :: e.operand := by
  have hne : e.render ≠ [] := by
    cases e with
    | byte t => exact t.render_ne_nil
    | group body => exact List.cons_ne_nil _ _
    | option body => exact List.cons_ne_nil _ _
  unfold opener operand
  cases h : e.render with
  | nil => exact absurd h hne
  | cons b rest => rfl

/-- The first byte of an element starts an element. -/
theorem Element.startsElement_opener (e : Element) : (Op.ofByte e.opener).startsElement := by
  cases e with
  | byte t =>
    cases t with
    | literal b h =>
      show (Op.ofByte b).startsElement
      rw [Op.ofByte_of_not_isOperator h]
      rfl
    | _ => rfl
  | group body => rfl
  | option body => rfl

theorem Items.render_element (e : Element) (n : Nat) (items : Items) (after : Bytes) :
    (Items.element e n items).render ++ after =
      e.opener :: (e.operand ++ (List.replicate n Byte.plus ++ (items.render ++ after))) := by
  rw [Items.render, e.render_eq, List.append_assoc, List.append_assoc, List.cons_append]

theorem Items.render_scan (n : Nat) (items : Items) (after : Bytes) :
    (Items.scan n items).render ++ after =
      Byte.scan :: (List.replicate n Byte.scan ++ (items.render ++ after)) := by
  rw [Items.render, List.replicate_succ, List.cons_append, List.cons_append, List.append_assoc]

mutual

/-- Passing over an element, one comes to what is behind its bytes. -/
theorem Element.afterElement_eq (rest : Bytes) :
    ∀ e : Element, afterElement e.opener (e.operand ++ rest) = rest
  | .byte t => by
    cases t with
    | literal b h =>
      show afterElement b rest = rest
      unfold afterElement
      rw [Op.ofByte_of_not_isOperator h]
    | set body h =>
      show afterSet ((body ++ [Byte.setClose]) ++ rest) = rest
      rw [List.append_assoc, List.singleton_append, afterSet, h.afterSet?_eq]
      rfl
    | _ => rfl
  | .group body => by
    show afterBlock 0 ((body.render ++ [Byte.groupClose]) ++ rest) = rest
    rw [List.append_assoc, List.singleton_append, Items.afterBlock_render, afterBlock_close rfl]
  | .option body => by
    show afterBlock 0 ((body.render ++ [Byte.optionClose]) ++ rest) = rest
    rw [List.append_assoc, List.singleton_append, Items.afterBlock_render, afterBlock_close rfl]

/-- All items of a sequence are in front of the end of their block. -/
theorem Items.afterBlock_render (n : Nat) (after : Bytes) :
    ∀ items : Items, afterBlock n (items.render ++ after) = afterBlock n after
  | .nil => rfl
  | .element e k items => by
    have hclose : Op.ofByte e.opener ≠ .close :=
      (Op.startsElement_eq_true.mp e.startsElement_opener).1
    rw [Items.render_element, afterBlock_afterElement n _ hclose, Element.afterElement_eq,
      afterBlock_afterRun_plus, afterRun_replicate, ← afterBlock_afterRun_plus,
      Items.afterBlock_render]
  | .scan k items => by
    rw [Items.render_scan, afterBlock_single n _ (.inr (.inr rfl)), afterBlock_afterRun_scan,
      afterRun_replicate, ← afterBlock_afterRun_scan, Items.afterBlock_render]
  | .boundary items => by
    rw [Items.render, List.cons_append, afterBlock_single n _ (.inl rfl), Items.afterBlock_render]
  | .plus items => by
    rw [Items.render, List.cons_append, afterBlock_single n _ (.inr (.inl rfl)),
      Items.afterBlock_render]

end

/-! ### The first byte of a sequence -/

/-- The first byte of a sequence, if it has one. -/
def Items.first : Items → Option UInt8
  | .nil => none
  | .element e _ _ => some e.opener
  | .scan _ _ => some Byte.scan
  | .boundary _ => some Byte.boundary
  | .plus _ => some Byte.plus

theorem Items.head?_render (items : Items) (after : Bytes) :
    (items.render ++ after).head? = items.first.or after.head? := by
  cases items with
  | element e n items =>
    rw [Items.render_element]
    rfl
  | _ => rfl

/-- The first byte of a sequence is not what it would be for another first item. -/
theorem Items.head?_ne {items : Items} {after : Bytes} {b : UInt8} (hb : ¬Byte.isClose b)
    (ha : atBlockEnd after) (h : items.first ≠ some b) :
    (items.render ++ after).head? ≠ some b := by
  rw [head?_render]
  cases hfirst : items.first with
  | some x =>
    rw [hfirst] at h
    exact h
  | none =>
    cases after with
    | nil => nofun
    | cons x after =>
      intro hx
      obtain rfl := Option.some.inj hx
      exact hb ha

theorem Items.first_ne_plus {items : Items} (h : items.startsWithPlus = false) :
    items.first ≠ some Byte.plus := by
  cases items with
  | element e n items =>
    intro hx
    have hop := (Op.startsElement_eq_true.mp e.startsElement_opener).2.2.1
    rw [Option.some.inj hx] at hop
    exact hop rfl
  | plus => cases h
  | _ => nofun

theorem Items.first_ne_scan {items : Items} (h : items.startsWithScan = false) :
    items.first ≠ some Byte.scan := by
  cases items with
  | element e n items =>
    intro hx
    have hop := (Op.startsElement_eq_true.mp e.startsElement_opener).2.2.2
    rw [Option.some.inj hx] at hop
    exact hop rfl
  | scan => cases h
  | _ => nofun

/-- A scan ends where it ends in the tree. -/
theorem Items.afterRun_scan {items : Items} {after : Bytes} (h : items.startsWithScan = false)
    (ha : atBlockEnd after) :
    afterRun Byte.scan (items.render ++ after) = items.render ++ after :=
  afterRun_of_head?_ne (head?_ne (by decide) ha (first_ne_scan h))

/-- At the start of a sequence a block ends if the sequence has no items. -/
theorem Items.atBlockEnd_render {items : Items} {after : Bytes} (ha : atBlockEnd after) :
    atBlockEnd (items.render ++ after) = items.isNil := by
  cases items with
  | nil => exact ha
  | element e n items =>
    rw [Items.render_element]
    exact beq_eq_false_iff_ne.mpr (Op.startsElement_eq_true.mp e.startsElement_opener).1
  | _ => rfl

end LinearPattern.Tree
