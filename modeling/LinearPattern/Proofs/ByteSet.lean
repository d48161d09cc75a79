import LinearPattern.Pattern.ByteSet
import LinearPattern.Proofs.Extent

/-!
# Closed sets

A set whose body is closed by the brace behind it, and by none before, is read up to that brace
whatever follows: it is passed over whole (`ByteSet.Closed.afterSet?_eq`), and its members are
those of the body alone (`ByteSet.contains_append`).  So the two readers of a set, the one that
passes over it and the one that tests a byte, divide the body in the same way.
-/

namespace LinearPattern

/-- What follows a set has no part in where it is closed. -/
theorem afterSet?_append {body rest : Bytes} (h : afterSet? body = some rest) (more : Bytes) :
    afterSet? (body ++ more) = some (rest ++ more) := by
  fun_induction afterSet? body with
  | case1 => cases h
  | case2 b hb =>
    obtain rfl := Option.some.inj h
    cases more with
    | nil => exact if_pos hb
    | cons x more => exact if_pos hb
  | case3 => cases h
  | case4 b x rest hb =>
    obtain rfl := Option.some.inj h
    exact if_pos hb
  | case5 b x rest hb ho ih =>
    rw [List.cons_append, List.cons_append, afterSet?, if_neg hb, if_pos ho]
    exact ih h
  | case6 b x rest hb ho ih =>
    rw [List.cons_append, List.cons_append, afterSet?, if_neg hb, if_neg ho]
    exact ih h

namespace ByteSet

/-- The brace behind the body is the first one that closes it. -/
def Closed (body : Bytes) : Prop := afterSet? (body ++ [Byte.setClose]) = some []

instance (body : Bytes) : Decidable (Closed body) :=
  inferInstanceAs (Decidable (afterSet? (body ++ [Byte.setClose]) = some []))

theorem Closed.afterSet?_eq {body : Bytes} (h : Closed body) (rest : Bytes) :
    afterSet? (body ++ Byte.setClose :: rest) = some rest := by
  have happend := afterSet?_append h rest
  rwa [List.append_assoc, List.singleton_append, List.nil_append] at happend

theorem Closed.afterSet_eq {body : Bytes} (h : Closed body) (rest : Bytes) :
    afterSet (body ++ Byte.setClose :: rest) = rest :=
  afterSet_of_some (h.afterSet?_eq rest)

/-- A body that is closed starts with a whole member, and is closed behind that member, too. -/
theorem Closed.of_cons {b : UInt8} {rest : Bytes} (h : Closed (b :: rest)) :
    b ≠ Byte.setClose ∧ (Byte.takesOperand b → rest ≠ []) ∧ Closed (afterToken b rest) := by
  unfold afterToken
  cases rest with
  | nil =>
    simp only [Closed, List.cons_append, List.nil_append, afterSet?] at h
    by_cases hb : b = Byte.setClose
    · subst hb
      cases h
    · rw [if_neg (by simpa using hb)] at h
      by_cases ho : Byte.takesOperand b
      · rw [if_pos ho] at h
        cases h
      · rw [if_neg ho]
        exact ⟨hb, fun hx => absurd hx ho, rfl⟩
  | cons x rest =>
    simp only [Closed, List.cons_append, afterSet?] at h
    by_cases hb : b = Byte.setClose
    · subst hb
      cases h
    · rw [if_neg (by simpa using hb)] at h
      refine ⟨hb, fun _ => List.cons_ne_nil x rest, ?_⟩
      by_cases ho : Byte.takesOperand b
      · rw [if_pos ho] at h ⊢
        exact h
      · rw [if_neg ho] at h ⊢
        exact h

/-! ### Members -/

section

variable {b : UInt8} {rest : Bytes}

theorem readToken_append (h : Byte.takesOperand b → rest ≠ []) (more : Bytes) :
    readToken b (rest ++ more) = readToken b rest := by
  cases rest with
  | cons x rest => rfl
  | nil =>
    have ho : ¬Byte.takesOperand b := fun ho => h ho rfl
    simp only [Byte.takesOperand, Bool.or_eq_true, beq_iff_eq, not_or] at ho
    unfold readToken
    split
    · rfl
    · rfl
    · exact absurd rfl ho.1
    · exact absurd rfl ho.2
    · rfl

theorem afterToken_append (h : Byte.takesOperand b → rest ≠ []) (more : Bytes) :
    afterToken b (rest ++ more) = afterToken b rest ++ more := by
  unfold afterToken
  split
  · next ho => exact List.drop_append_of_le_length (List.length_pos_iff.mpr (h ho))
  · rfl

theorem readToken_setClose (rest : Bytes) : readToken Byte.setClose rest = .close := rfl

/-- A dash in front of the brace has no upper end. -/
theorem rangeEnd?_append {body : Bytes} (h : Closed body) (more : Bytes) :
    rangeEnd? (body ++ Byte.setClose :: more) = rangeEnd? body := by
  cases body with
  | nil => rfl
  | cons b rest =>
    rw [List.cons_append, rangeEnd?, rangeEnd?, readToken_append h.of_cons.2.1]

theorem afterFirst_append {body : Bytes} (h : Closed body) (hne : body ≠ []) (more : Bytes) :
    afterFirst (body ++ more) = afterFirst body ++ more := by
  cases body with
  | nil => exact absurd rfl hne
  | cons b rest => exact afterToken_append h.of_cons.2.1 more

theorem Closed.afterFirst {body : Bytes} (h : Closed body) (hne : body ≠ []) :
    Closed (afterFirst body) := by
  cases body with
  | nil => exact absurd rfl hne
  | cons b rest => exact h.of_cons.2.2

/-- Only a dash reads the byte in front of it. -/
theorem lower_eq_some {low : Option UInt8} {lowest : UInt8}
    (h : (if _ : b == Byte.dash then low else none) = some lowest) :
    b = Byte.dash ∧ low = some lowest := by
  split at h
  · next hb => exact ⟨beq_iff_eq.mp hb, h⟩
  · cases h

end

theorem lists_append {body : Bytes} (h : Closed body) (c : UInt8) (low : Option UInt8)
    (more : Bytes) : lists c low (body ++ Byte.setClose :: more) = lists c low body := by
  fun_induction lists c low body with
  | case1 low =>
    rw [List.nil_append, lists.eq_def]
    simp only [readToken_setClose]
  | case2 low b rest hread =>
    obtain ⟨-, ho, -⟩ := h.of_cons
    rw [List.cons_append, lists.eq_def]
    simp only [readToken_append ho, hread]
  | case3 low b rest hread =>
    obtain ⟨-, ho, -⟩ := h.of_cons
    rw [List.cons_append, lists.eq_def]
    simp only [readToken_append ho, hread]
  | case4 low b rest hread ih =>
    obtain ⟨-, ho, hafter⟩ := h.of_cons
    rw [List.cons_append, lists.eq_def]
    simp only [readToken_append ho, afterToken_append ho, hread, ih hafter]
  | case5 low b rest x hread hlow ih =>
    obtain ⟨-, ho, hafter⟩ := h.of_cons
    rw [List.cons_append, lists.eq_def]
    rw [dite_eq_ite] at hlow
    simp only [readToken_append ho, afterToken_append ho, hread, hlow, ih hafter]
  | case6 low b rest x hread lowest hlow hend ih =>
    obtain ⟨-, ho, hafter⟩ := h.of_cons
    obtain ⟨rfl, rfl⟩ := lower_eq_some hlow
    have hrest : Closed rest := hafter
    rw [List.cons_append, lists.eq_def]
    simp only [readToken_append ho, rangeEnd?_append hrest, hread, hend, beq_self_eq_true, if_true,
      ih hrest]
  | case7 low b rest x hread lowest hlow high hend ih =>
    obtain ⟨-, ho, hafter⟩ := h.of_cons
    obtain ⟨rfl, rfl⟩ := lower_eq_some hlow
    have hrest : Closed rest := hafter
    have hne : rest ≠ [] := by
      rintro rfl
      cases hend
    rw [List.cons_append, lists.eq_def]
    simp only [readToken_append ho, rangeEnd?_append hrest, afterFirst_append hrest hne, hread,
      hend, beq_self_eq_true, if_true, ih (hrest.afterFirst hne)]

theorem contains_of_ne {b : UInt8} (h : b ≠ Byte.nonBlank) (rest : Bytes) (c : UInt8) :
    contains (b :: rest) c = lists c none (b :: rest) := by
  unfold contains
  split
  · next heq => exact absurd (List.cons.inj heq).1 h
  · rfl

/-- The members of a closed set are those of its body alone. -/
theorem contains_append {body : Bytes} (h : Closed body) (c : UInt8) (more : Bytes) :
    contains (body ++ Byte.setClose :: more) c = contains body c := by
  cases body with
  | nil => exact lists_append h c none more
  | cons b rest =>
    by_cases hb : b = Byte.nonBlank
    · subst hb
      have hrest : Closed rest := h.of_cons.2.2
      show (!lists c none (rest ++ Byte.setClose :: more)) = !lists c none rest
      rw [lists_append hrest]
    · rw [List.cons_append, contains_of_ne hb, contains_of_ne hb, ← List.cons_append,
        lists_append h]

/-- A set that is passed over has a closed body in front of its brace. -/
theorem exists_closed_of_afterSet? {body rest : Bytes} (h : afterSet? body = some rest) :
    ∃ members, body = members ++ Byte.setClose :: rest ∧ Closed members := by
  fun_induction afterSet? body with
  | case1 => cases h
  | case2 b hb =>
    obtain rfl := Option.some.inj h
    obtain rfl := beq_iff_eq.mp hb
    exact ⟨[], rfl, rfl⟩
  | case3 => cases h
  | case4 b x tail hb =>
    obtain rfl := Option.some.inj h
    obtain rfl := beq_iff_eq.mp hb
    exact ⟨[], rfl, rfl⟩
  | case5 b x tail hb ho ih =>
    obtain ⟨members, rfl, hclosed⟩ := ih h
    refine ⟨b :: x :: members, rfl, ?_⟩
    rw [Closed, List.cons_append, List.cons_append, afterSet?, if_neg hb, if_pos ho]
    exact hclosed
  | case6 b x tail hb ho ih =>
    obtain ⟨members, hmembers, hclosed⟩ := ih h
    refine ⟨b :: members, by rw [hmembers, List.cons_append], ?_⟩
    cases members with
    | nil => exact (if_neg hb).trans (if_neg ho)
    | cons y members =>
      rw [Closed, List.cons_append, List.cons_append, afterSet?, if_neg hb, if_neg ho]
      exact hclosed

/-- What follows a set has no part in what its members are. -/
theorem contains_of_afterSet? {body rest : Bytes} (h : afterSet? body = some rest) (c : UInt8)
    (more : Bytes) : contains (body ++ more) c = contains body c := by
  obtain ⟨members, rfl, hclosed⟩ := exists_closed_of_afterSet? h
  rw [List.append_assoc, List.cons_append, contains_append hclosed, contains_append hclosed]

end ByteSet

end LinearPattern
