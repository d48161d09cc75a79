import LinearPattern.Proofs.ByteSet

/-!
# The tokens of a pattern

Read from the left, a pattern is a string of tokens: a backslash together with the byte behind it, a
whole set, and every other byte for itself.  Opens and closes are tokens like any others here, so
that every pattern has tokens, well formed or not.

* `nextPlace`: what follows a token;
* `TokenStart`: the places at which a token starts.
-/

namespace LinearPattern

/-- What follows the token that starts with the byte `b`. -/
def nextPlace (b : UInt8) (rest : Bytes) : Bytes :=
  match Op.ofByte b with
  | .escape => rest.drop 1
  | .set => afterSet rest
  | _ => rest

theorem nextPlace_of_ne {b : UInt8} (rest : Bytes) (he : Op.ofByte b ≠ .escape)
    (hs : Op.ofByte b ≠ .set) : nextPlace b rest = rest := by
  unfold nextPlace
  split <;> first | contradiction | rfl

theorem nextPlace_suffix (b : UInt8) (rest : Bytes) : nextPlace b rest <:+ rest := by
  unfold nextPlace
  split
  · exact List.drop_suffix 1 rest
  · exact afterSet_suffix rest
  · exact List.suffix_refl rest

/-- A token of the pattern `ps` starts at the place `qs`, or the pattern ends there: it is the start
of the pattern, or the place behind one token or more. -/
inductive TokenStart : Bytes → Bytes → Prop
  | here {ps : Bytes} : TokenStart ps ps
  | behind {b : UInt8} {rest qs : Bytes} (h : TokenStart (nextPlace b rest) qs) :
      TokenStart (b :: rest) qs

namespace TokenStart

variable {ps qs rs : Bytes}

theorem suffix (h : TokenStart ps qs) : qs <:+ ps := by
  induction h with
  | here => exact List.suffix_refl _
  | @behind b rest qs _ ih =>
    exact ih.trans ((nextPlace_suffix b rest).trans (List.suffix_cons b rest))

theorem trans (h : TokenStart ps qs) (h' : TokenStart qs rs) : TokenStart ps rs := by
  induction h with
  | here => exact h'
  | behind _ ih => exact .behind (ih h')

/-- A byte that is a token on its own is passed over. -/
theorem cons {b : UInt8} (he : Op.ofByte b ≠ .escape) (hs : Op.ofByte b ≠ .set)
    (h : TokenStart ps qs) : TokenStart (b :: ps) qs :=
  .behind ((nextPlace_of_ne ps he hs).symm ▸ h)

/-- So is the open of a block. -/
theorem opened {b : UInt8} (hop : Op.ofByte b = .group ∨ Op.ofByte b = .option)
    (h : TokenStart ps qs) : TokenStart (b :: ps) qs := by
  obtain ⟨he, hs⟩ := Op.ne_of_opens hop
  exact h.cons he hs

end TokenStart

end LinearPattern
