import LinearPattern.Proofs.ByteSet

/-!
# What the body of a set denotes

`ByteSet.lists` reads a body once, from left to right, and stops at the first member that lists the
byte.  Here the body as a whole has a meaning.

* `Word`, `words`: the body cut into what is written for one byte, or for all that are not ASCII;
* `rangeAt`: three words that a dash joins into a range, found by their positions;
* `Single`, `Joined`: the words outside of all ranges, and the ends of the ranges;
* `Listed`: the bytes that the words list, and `contains_iff`, by which they are the members.

A range does not take the word in front of its dash out of the list: the lower end is a member even
if the upper end is less, while the upper end is not (`contains_reversed`).
-/

namespace LinearPattern.ByteSet

/-! ### Words -/

/-- What is written in a body for one byte, or for all bytes that are not ASCII. -/
inductive Word
  /-- A byte that stands for itself. -/
  | plain (b : UInt8)
  /-- A backslash, and the byte that is meant. -/
  | escaped (b : UInt8)
  /-- An at sign, and the byte that is meant but for its bit of value 64. -/
  | folded (b : UInt8)
  /-- A question mark. -/
  | wildcard
  deriving DecidableEq

namespace Word

/-- The byte that is meant; a question mark means no single one. -/
def byte? : Word → Option UInt8
  | plain b => some b
  | escaped b => some b
  | folded b => some (b ^^^ 0x40)
  | wildcard => none

/-- The byte that is meant behind a dash, where a question mark is a byte like any other. -/
def upper (w : Word) : UInt8 := w.byte?.getD Byte.any

/-- The dash that may join the words around it. -/
abbrev dash : Word := plain Byte.dash

end Word

/-- The words of a body, up to its close, to half a word at the end of the pattern, or to the end of
the pattern itself. -/
def words : Bytes → List Word
  | [] => []
  | Byte.setClose :: _ => []
  | Byte.any :: rest => .wildcard :: words rest
  | [Byte.escape] => []
  | Byte.escape :: x :: rest => .escaped x :: words rest
  | [Byte.letter] => []
  | Byte.letter :: x :: rest => .folded x :: words rest
  | b :: rest => .plain b :: words rest

/-! ### Ranges -/

/-- There are a byte, a dash and one more word from position `i` on. -/
def joinable (ws : List Word) (i : Nat) : Bool :=
  (ws[i]?.bind Word.byte?).isSome && ws[i + 1]? == some .dash && ws[i + 2]?.isSome

/-- The three words from position `i` on are a range: they can be joined, and the first of them is
not in a range yet, neither as its dash nor as its upper end. -/
def rangeAt (ws : List Word) : Nat → Bool
  | 0 => joinable ws 0
  | 1 => joinable ws 1 && !rangeAt ws 0
  | i + 2 => joinable ws (i + 2) && !rangeAt ws (i + 1) && !rangeAt ws i

/-- The word at position `i` belongs to a range. -/
def InRange (ws : List Word) (i : Nat) : Prop := ∃ j, rangeAt ws j ∧ j ≤ i ∧ i ≤ j + 2

/-- The word `w` is written outside of all ranges. -/
def Single (ws : List Word) (w : Word) : Prop := ∃ i, ws[i]? = some w ∧ ¬InRange ws i

/-- The words `w` and `v` are the ends of a range. -/
def Joined (ws : List Word) (w v : Word) : Prop :=
  ∃ i, rangeAt ws i ∧ ws[i]? = some w ∧ ws[i + 2]? = some v

/-- The words list the byte `c`: an ASCII byte by itself, between the ends of a range, or as the
lower end of one, and any other byte by a question mark. -/
def Listed (ws : List Word) (c : UInt8) : Prop :=
  if Byte.isAscii c then
    (∃ w, Single ws w ∧ w.byte? = some c) ∨
      ∃ w v low, Joined ws w v ∧ w.byte? = some low ∧ (low ≤ c ∧ c ≤ v.upper ∨ c = low)
  else Single ws .wildcard

/-! ### Word after word -/

section

variable {w d v u a b : Word} {ws : List Word}

/-- A word that starts no range leaves the ranges behind it as they are. -/
theorem rangeAt_cons_succ (h : rangeAt (w :: ws) 0 = false) (i : Nat) :
    rangeAt (w :: ws) (i + 1) = rangeAt ws i := by
  fun_induction rangeAt ws i with
  | case1 =>
    show (joinable ws 0 && !rangeAt (w :: ws) 0) = _
    rw [h, Bool.not_false, Bool.and_true]
  | case2 ih =>
    show (joinable ws 1 && !rangeAt (w :: ws) 1 && !rangeAt (w :: ws) 0) = _
    rw [h, ih, Bool.not_false, Bool.and_true]
  | case3 i ih1 ih2 =>
    show (joinable ws (i + 2) && !rangeAt (w :: ws) (i + 2) && !rangeAt (w :: ws) (i + 1)) = _
    rw [ih1, ih2]

/-- A range leaves the ranges behind it as they are. -/
theorem rangeAt_cons_range (h : rangeAt (w :: d :: v :: ws) 0) (i : Nat) :
    rangeAt (w :: d :: v :: ws) 1 = false ∧ rangeAt (w :: d :: v :: ws) 2 = false ∧
      rangeAt (w :: d :: v :: ws) (i + 3) = rangeAt ws i := by
  have hone : rangeAt (w :: d :: v :: ws) 1 = false := by
    rw [rangeAt, h, Bool.not_true, Bool.and_false]
  have htwo : rangeAt (w :: d :: v :: ws) 2 = false := by
    rw [rangeAt, h, Bool.not_true, Bool.and_false]
  refine ⟨hone, htwo, ?_⟩
  fun_induction rangeAt ws i with
  | case1 =>
    show (joinable ws 0 && !rangeAt (w :: d :: v :: ws) 2 && !rangeAt (w :: d :: v :: ws) 1) = _
    rw [hone, htwo, Bool.not_false, Bool.and_true, Bool.and_true]
  | case2 ih =>
    show (joinable ws 1 && !rangeAt (w :: d :: v :: ws) 3 && !rangeAt (w :: d :: v :: ws) 2) = _
    rw [htwo, ih, Bool.not_false, Bool.and_true]
  | case3 i ih1 ih2 =>
    show (joinable ws (i + 2) && !rangeAt (w :: d :: v :: ws) (i + 4) &&
      !rangeAt (w :: d :: v :: ws) (i + 3)) = _
    rw [ih1, ih2]

theorem inRange_cons_succ (h : rangeAt (w :: ws) 0 = false) (i : Nat) :
    InRange (w :: ws) (i + 1) ↔ InRange ws i := by
  constructor
  · rintro ⟨j, hj, hle, hge⟩
    cases j with
    | zero => rw [h] at hj; cases hj
    | succ j => exact ⟨j, rangeAt_cons_succ h j ▸ hj, by omega, by omega⟩
  · rintro ⟨j, hj, hle, hge⟩
    exact ⟨j + 1, (rangeAt_cons_succ h j).symm ▸ hj, by omega, by omega⟩

theorem not_inRange_cons_zero (h : rangeAt (w :: ws) 0 = false) : ¬InRange (w :: ws) 0 := by
  rintro ⟨j, hj, hle, -⟩
  obtain rfl := Nat.le_zero.mp hle
  rw [h] at hj
  cases hj

theorem inRange_cons_range (h : rangeAt (w :: d :: v :: ws) 0) (i : Nat) :
    InRange (w :: d :: v :: ws) i ↔ i ≤ 2 ∨ ∃ k, i = k + 3 ∧ InRange ws k := by
  constructor
  · rintro ⟨j, hj, hle, hge⟩
    match j with
    | 0 => exact .inl hge
    | 1 => rw [(rangeAt_cons_range h 0).1] at hj; cases hj
    | 2 => rw [(rangeAt_cons_range h 0).2.1] at hj; cases hj
    | j + 3 =>
      rw [(rangeAt_cons_range h j).2.2] at hj
      exact .inr ⟨i - 3, by omega, j, hj, by omega, by omega⟩
  · rintro (hle | ⟨k, rfl, j, hj, hle, hge⟩)
    · exact ⟨0, h, Nat.zero_le i, hle⟩
    · exact ⟨j + 3, (rangeAt_cons_range h j).2.2 ▸ hj, by omega, by omega⟩

theorem single_cons (h : rangeAt (w :: ws) 0 = false) :
    Single (w :: ws) u ↔ u = w ∨ Single ws u := by
  constructor
  · rintro ⟨i, hu, hi⟩
    cases i with
    | zero => exact .inl (Option.some.inj hu).symm
    | succ i => exact .inr ⟨i, hu, fun hin => hi ((inRange_cons_succ h i).mpr hin)⟩
  · rintro (rfl | ⟨i, hu, hi⟩)
    · exact ⟨0, rfl, not_inRange_cons_zero h⟩
    · exact ⟨i + 1, hu, fun hin => hi ((inRange_cons_succ h i).mp hin)⟩

theorem single_cons_range (h : rangeAt (w :: d :: v :: ws) 0) :
    Single (w :: d :: v :: ws) u ↔ Single ws u := by
  constructor
  · rintro ⟨i, hu, hi⟩
    rw [inRange_cons_range h, not_or, Nat.not_le] at hi
    obtain ⟨k, rfl⟩ := Nat.exists_eq_add_of_le' hi.1
    exact ⟨k, hu, fun hin => hi.2 ⟨k, rfl, hin⟩⟩
  · rintro ⟨i, hu, hi⟩
    refine ⟨i + 3, hu, fun hin => ?_⟩
    rcases (inRange_cons_range h _).mp hin with hle | ⟨k, hk, hin⟩
    · omega
    · obtain rfl : i = k := by omega
      exact hi hin

theorem joined_cons (h : rangeAt (w :: ws) 0 = false) : Joined (w :: ws) a b ↔ Joined ws a b := by
  constructor
  · rintro ⟨i, hi, ha, hb⟩
    cases i with
    | zero => rw [h] at hi; cases hi
    | succ i => exact ⟨i, rangeAt_cons_succ h i ▸ hi, ha, hb⟩
  · rintro ⟨i, hi, ha, hb⟩
    exact ⟨i + 1, (rangeAt_cons_succ h i).symm ▸ hi, ha, hb⟩

theorem joined_cons_range (h : rangeAt (w :: d :: v :: ws) 0) :
    Joined (w :: d :: v :: ws) a b ↔ (a = w ∧ b = v) ∨ Joined ws a b := by
  constructor
  · rintro ⟨i, hi, ha, hb⟩
    match i with
    | 0 => exact .inl ⟨(Option.some.inj ha).symm, (Option.some.inj hb).symm⟩
    | 1 => rw [(rangeAt_cons_range h 0).1] at hi; cases hi
    | 2 => rw [(rangeAt_cons_range h 0).2.1] at hi; cases hi
    | i + 3 => exact .inr ⟨i, (rangeAt_cons_range h i).2.2 ▸ hi, ha, hb⟩
  · rintro (⟨rfl, rfl⟩ | ⟨i, hi, ha, hb⟩)
    · exact ⟨0, h, rfl, rfl⟩
    · exact ⟨i + 3, (rangeAt_cons_range h i).2.2.symm ▸ hi, ha, hb⟩

end

/-! ### What the words list -/

section

variable {w v u : Word} {ws : List Word} {c : UInt8}

/-- A word lists the byte `c`, outside of all ranges. -/
def Word.Lists (w : Word) (c : UInt8) : Prop :=
  if Byte.isAscii c then w.byte? = some c else w = .wildcard

theorem not_listed_nil : ¬Listed [] c := by
  simp [Listed, Single, Joined]

theorem listed_cons (h : rangeAt (w :: ws) 0 = false) :
    Listed (w :: ws) c ↔ w.Lists c ∨ Listed ws c := by
  unfold Listed Word.Lists
  split
  · simp only [single_cons h, joined_cons h]
    constructor
    · rintro (⟨u, rfl | hu, hb⟩ | hrange)
      · exact .inl hb
      · exact .inr (.inl ⟨u, hu, hb⟩)
      · exact .inr (.inr hrange)
    · rintro (hb | ⟨u, hu, hb⟩ | hrange)
      · exact .inl ⟨w, .inl rfl, hb⟩
      · exact .inl ⟨u, .inr hu, hb⟩
      · exact .inr hrange
  · rw [single_cons h]
    exact or_congr_left eq_comm

theorem listed_cons_range {low : UInt8} (h : rangeAt (w :: .dash :: v :: ws) 0)
    (hlow : w.byte? = some low) :
    Listed (w :: .dash :: v :: ws) c ↔
      (Byte.isAscii c ∧ (low ≤ c ∧ c ≤ v.upper ∨ c = low)) ∨ Listed ws c := by
  unfold Listed
  split
  · next hascii =>
    simp only [single_cons_range h, joined_cons_range h]
    constructor
    · rintro (hbyte | ⟨a, b, x, ⟨rfl, rfl⟩ | hab, hx, hc⟩)
      · exact .inr (.inl hbyte)
      · obtain rfl := Option.some.inj (hlow.symm.trans hx)
        exact .inl ⟨hascii, hc⟩
      · exact .inr (.inr ⟨a, b, x, hab, hx, hc⟩)
    · rintro (⟨-, hc⟩ | hbyte | ⟨a, b, x, hab, hx, hc⟩)
      · exact .inr ⟨w, v, low, .inl ⟨rfl, rfl⟩, hlow, hc⟩
      · exact .inl hbyte
      · exact .inr ⟨a, b, x, .inr hab, hx, hc⟩
  · next hascii =>
    rw [single_cons_range h, or_iff_right (fun hc => hascii hc.1)]

end

/-! ### Reading a body -/

/-- The byte `b` is a word of its own. -/
def StandsAlone (b : UInt8) : Prop :=
  b ≠ Byte.setClose ∧ b ≠ Byte.any ∧ b ≠ Byte.escape ∧ b ≠ Byte.letter

theorem words_of_standsAlone {b : UInt8} (h : StandsAlone b) (rest : Bytes) :
    words (b :: rest) = .plain b :: words rest := by
  obtain ⟨hclose, hany, hescape, hletter⟩ := h
  rw [words]
  · exact hclose
  · exact hany
  · exact fun heq _ => hescape heq
  · exact fun _ _ heq _ => hescape heq
  · exact fun heq _ => hletter heq
  · exact fun _ _ heq _ => hletter heq

theorem readToken_of_standsAlone {b : UInt8} (h : StandsAlone b) (rest : Bytes) :
    readToken b rest = .byte b ∧ afterToken b rest = rest := by
  obtain ⟨hclose, hany, hescape, hletter⟩ := h
  constructor
  · unfold readToken
    split
    · exact absurd rfl hclose
    · exact absurd rfl hany
    · exact absurd rfl hescape
    · exact absurd rfl hletter
    · rfl
  · rw [afterToken, Byte.takesOperand, if_neg]
    rw [Bool.or_eq_true, beq_iff_eq, beq_iff_eq, not_or]
    exact ⟨hescape, hletter⟩

/-- What is written first in a body, and what is written behind it. -/
theorem words_cons (b : UInt8) (rest : Bytes) :
    match readToken b rest with
    | .close => words (b :: rest) = []
    | .cut => words (b :: rest) = []
    | .nonAscii => words (b :: rest) = .wildcard :: words (afterToken b rest)
    | .byte x => ∃ w : Word, words (b :: rest) = w :: words (afterToken b rest) ∧
        w.byte? = some x ∧ (w = .dash ↔ b = Byte.dash) := by
  by_cases hclose : b = Byte.setClose
  · subst hclose
    rfl
  by_cases hany : b = Byte.any
  · subst hany
    rfl
  by_cases hescape : b = Byte.escape
  · subst hescape
    cases rest with
    | nil => rfl
    | cons x rest =>
      exact ⟨.escaped x, rfl, rfl, nofun, fun h => absurd h (by decide)⟩
  by_cases hletter : b = Byte.letter
  · subst hletter
    cases rest with
    | nil => rfl
    | cons x rest =>
      exact ⟨.folded x, rfl, rfl, nofun, fun h => absurd h (by decide)⟩
  have halone : StandsAlone b := ⟨hclose, hany, hescape, hletter⟩
  obtain ⟨hread, hafter⟩ := readToken_of_standsAlone halone rest
  rw [hread, hafter]
  exact ⟨.plain b, words_of_standsAlone halone rest, rfl, by simp⟩

section

variable {b x : UInt8} {rest : Bytes}

theorem words_of_end (h : readToken b rest = .close ∨ readToken b rest = .cut) :
    words (b :: rest) = [] := by
  have hcons := words_cons b rest
  rcases h with h | h
  · rw [h] at hcons
    exact hcons
  · rw [h] at hcons
    exact hcons

theorem words_of_nonAscii (h : readToken b rest = .nonAscii) :
    words (b :: rest) = .wildcard :: words (afterToken b rest) := by
  have hcons := words_cons b rest
  rw [h] at hcons
  exact hcons

theorem words_of_byte (h : readToken b rest = .byte x) :
    ∃ w : Word, words (b :: rest) = w :: words (afterToken b rest) ∧
      w.byte? = some x ∧ (w = .dash ↔ b = Byte.dash) := by
  have hcons := words_cons b rest
  rw [h] at hcons
  exact hcons

theorem words_dash (rest : Bytes) : words (Byte.dash :: rest) = .dash :: words rest :=
  words_of_standsAlone ⟨by decide, by decide, by decide, by decide⟩ rest

/-- A dash that is left without an upper end is the last word of the body. -/
theorem words_of_rangeEnd?_eq_none (h : rangeEnd? rest = none) : words rest = [] := by
  cases rest with
  | nil => rfl
  | cons b rest =>
    rw [rangeEnd?] at h
    cases hread : readToken b rest with
    | byte x => rw [hread] at h; cases h
    | nonAscii => rw [hread] at h; cases h
    | close => exact words_of_end (.inl hread)
    | cut => exact words_of_end (.inr hread)

/-- The upper end of a range is the word behind its dash. -/
theorem words_of_rangeEnd?_eq_some {high : UInt8} (h : rangeEnd? rest = some high) :
    ∃ v : Word, words rest = v :: words (afterFirst rest) ∧ v.upper = high := by
  cases rest with
  | nil => cases h
  | cons b rest =>
    rw [rangeEnd?] at h
    cases hread : readToken b rest with
    | byte x =>
      rw [hread] at h
      obtain ⟨w, hw, hbyte, -⟩ := words_of_byte hread
      obtain rfl := Option.some.inj h
      exact ⟨w, hw, by rw [Word.upper, hbyte, Option.getD_some]⟩
    | nonAscii =>
      rw [hread] at h
      exact ⟨.wildcard, words_of_nonAscii hread, Option.some.inj h⟩
    | close => rw [hread] at h; cases h
    | cut => rw [hread] at h; cases h

end

/-! ### The denotation is what the reader finds -/

theorem Word.lists_iff_of_byte? {w : Word} {x c : UInt8} (h : w.byte? = some x) :
    w.Lists c ↔ Byte.isAscii c ∧ some x = some c := by
  unfold Word.Lists
  split
  · next hascii => rw [h, and_iff_right hascii]
  · next hascii =>
    rw [iff_false_intro hascii, false_and, iff_false]
    rintro rfl
    cases h

/-- The words in front of what is still to be read, as far as they may belong to a range with it:
the byte that may be its lower end, if there is one. -/
inductive Behind : Option UInt8 → List Word → Prop
  | nothing : Behind none []
  | byte {w : Word} {x : UInt8} (h : w.byte? = some x) : Behind (some x) [w]

theorem none_or_iff {c : UInt8} {p : Prop} : (Byte.isAscii c ∧ none = some c) ∨ p ↔ p :=
  or_iff_right fun h => Option.some_ne_none c h.2.symm

theorem listed_append {low : Option UInt8} {front us : List Word} {c : UInt8}
    (hf : Behind low front) (hus : ∀ vs, us = .dash :: vs → low = none) :
    Listed (front ++ us) c ↔ (Byte.isAscii c ∧ low = some c) ∨ Listed us c := by
  cases hf with
  | nothing => rw [List.nil_append, none_or_iff]
  | @byte w x hbyte =>
    have hrange : rangeAt (w :: us) 0 = false := by
      cases us with
      | nil => simp [rangeAt, joinable]
      | cons u us =>
        have hdash : u ≠ .dash := fun h => nomatch hus us (congrArg (· :: us) h)
        simp [rangeAt, joinable, hdash]
    rw [List.singleton_append, listed_cons hrange, Word.lists_iff_of_byte? hbyte]

theorem listed_append_nil {low : Option UInt8} {front : List Word} {c : UInt8}
    (hf : Behind low front) : Listed (front ++ []) c ↔ Byte.isAscii c ∧ low = some c := by
  have hlast : ∀ vs, [] = Word.dash :: vs → low = none := fun _ h => nomatch h
  rw [listed_append hf hlast, or_iff_left not_listed_nil]

theorem Word.lists_wildcard {c : UInt8} : Word.wildcard.Lists c ↔ Byte.isAscii c = false := by
  cases hascii : Byte.isAscii c <;> simp [Word.Lists, hascii, Word.byte?]

/-- The words behind those in front are listed as the reader finds them, which has tested the lower
end already. -/
theorem lists_iff (c : UInt8) {low : Option UInt8} {body : Bytes} {front : List Word}
    (hf : Behind low front) :
    (Byte.isAscii c ∧ low = some c) ∨ lists c low body ↔ Listed (front ++ words body) c := by
  -- the word in front is the one that `low` was read from, so that a range is seen as a whole
  fun_induction lists c low body generalizing front with
  | case1 low =>
    rw [words, listed_append_nil hf, or_iff_left Bool.false_ne_true]
  | case2 low b rest hread =>
    rw [words_of_end (.inl hread), listed_append_nil hf, or_iff_left Bool.false_ne_true]
  | case3 low b rest hread =>
    rw [words_of_end (.inr hread), listed_append_nil hf, or_iff_left Bool.false_ne_true]
  | case4 low b rest hread ih =>
    have hcons := words_of_nonAscii hread
    have hlast : ∀ vs, words (b :: rest) = .dash :: vs → low = none := by
      intro vs h
      rw [hcons] at h
      cases h
    have hbehind := ih .nothing
    rw [List.nil_append, none_or_iff] at hbehind
    rw [listed_append hf hlast, hcons, listed_cons rfl, Word.lists_wildcard, ← hbehind,
      Bool.or_eq_true, Bool.not_eq_true']
  | case5 low b rest x hread hlow ih =>
    obtain ⟨w, hw, hbyte, hdash⟩ := words_of_byte hread
    have hlast : ∀ vs, words (b :: rest) = .dash :: vs → low = none := by
      intro vs h
      have hb : b = Byte.dash := hdash.mp (List.cons.inj (hw.symm.trans h)).1
      rwa [dif_pos (beq_iff_eq.mpr hb)] at hlow
    have hbehind := ih (.byte hbyte)
    rw [List.singleton_append, ← hw] at hbehind
    rw [listed_append hf hlast, ← hbehind, Bool.or_eq_true, Bool.and_eq_true, beq_iff_eq,
      Option.some_inj, @eq_comm _ x c]
  -- a dash with nothing behind it that it could join: the body ends there
  | case6 low b rest x hread lowest hlow hend ih =>
    obtain ⟨rfl, rfl⟩ := lower_eq_some hlow
    cases hf with
    | @byte w _ hbyte =>
      have hw : words (Byte.dash :: rest) = [.dash] := by
        rw [words_dash, words_of_rangeEnd?_eq_none hend]
      have hrest : ¬lists c none rest := by
        intro h
        have hlisted := (ih .nothing).mp (.inr h)
        rw [words_of_rangeEnd?_eq_none hend] at hlisted
        exact not_listed_nil hlisted
      have hwrange : rangeAt [w, .dash] 0 = false := by simp [rangeAt, joinable]
      have hdash : Word.dash.Lists c ↔ c = Byte.dash := by
        rw [Word.lists_iff_of_byte? rfl, Option.some_inj, @eq_comm _ Byte.dash c]
        exact and_iff_right_of_imp (fun h => h ▸ rfl)
      rw [hw, List.singleton_append, listed_cons hwrange, listed_cons rfl, hdash,
        or_iff_left not_listed_nil, Word.lists_iff_of_byte? hbyte, Bool.or_eq_true, beq_iff_eq,
        or_iff_left hrest]
  -- a range, with nothing in front of what follows it
  | case7 low b rest x hread lowest hlow high hend ih =>
    obtain ⟨rfl, rfl⟩ := lower_eq_some hlow
    obtain ⟨v, hv, rfl⟩ := words_of_rangeEnd?_eq_some hend
    cases hf with
    | @byte w _ hbyte =>
      have hrange : rangeAt (w :: .dash :: v :: words (afterFirst rest)) 0 := by
        simp [rangeAt, joinable, hbyte]
      have hbehind := ih .nothing
      rw [List.nil_append, none_or_iff] at hbehind
      rw [words_dash, hv, List.singleton_append, listed_cons_range hrange hbyte, ← hbehind]
      simp only [Bool.or_eq_true, Bool.and_eq_true, decide_eq_true_eq, Option.some_inj]
      rw [and_or_left, or_assoc, and_assoc, @eq_comm _ lowest c, or_left_comm]

/-- The members of a set are the bytes that the words of its body list, or with a caret in front of
them, all the others. -/
theorem contains_iff (body : Bytes) (c : UInt8) :
    contains body c ↔
      if body.head? = some Byte.nonBlank then ¬Listed (words body.tail) c
      else Listed (words body) c := by
  have hlists (members : Bytes) : lists c none members ↔ Listed (words members) c := by
    have h : (Byte.isAscii c ∧ none = some c) ∨ lists c none members ↔ Listed (words members) c :=
      lists_iff c .nothing
    rwa [none_or_iff] at h
  cases body with
  | nil => exact hlists []
  | cons b members =>
    rw [List.head?_cons, List.tail_cons, ← hlists, ← hlists]
    split
    · next hb =>
      obtain rfl := Option.some.inj hb
      show (!lists c none members) = true ↔ _
      rw [Bool.not_eq_true', Bool.not_eq_true]
    · next hb => rw [contains_of_ne (fun h => hb (congrArg some h))]

/-- The lower end of a range is tested before its dash is read: it is a member of `{z-a}`, where it
is neither written outside of the range nor between its ends. -/
theorem contains_reversed :
    contains [122, 45, 97, 125] 122 ∧
      (¬∃ w, Single (words [122, 45, 97, 125]) w ∧ w.byte? = some 122) ∧
      ¬∃ w v low, Joined (words [122, 45, 97, 125]) w v ∧ w.byte? = some low ∧
        low ≤ 122 ∧ 122 ≤ v.upper := by
  have hwords : words [122, 45, 97, 125] = [.plain 122, .dash, .plain 97] := by decide
  have hrange : rangeAt [.plain 122, .dash, .plain 97] 0 := by decide
  rw [hwords]
  refine ⟨by decide +kernel, ?_, ?_⟩
  · rintro ⟨w, hw, -⟩
    obtain ⟨i, hi, -⟩ := (single_cons_range hrange).mp hw
    cases hi
  · rintro ⟨w, v, low, hwv, -, -, hle⟩
    rcases (joined_cons_range hrange).mp hwv with ⟨-, rfl⟩ | ⟨i, -, hi, -⟩
    · exact absurd hle (by decide)
    · cases hi

end LinearPattern.ByteSet
