import LinearPattern.Match.Verdict
import LinearPattern.Pattern.Literal
import LinearPattern.Proofs.Machine

/-!
# Literals match themselves

The pattern of a literal is run byte for byte: each byte of the literal, with a backslash in front
of it or without, is one item that accepts that byte and no other (`literalByte_spells`).  So a run
gets as far as the literal and the data agree (`block_literalPattern`), and its verdict follows from
the length of their common prefix (`matchFrom_literalPattern`).

* `commonPrefix`, the longest common prefix (`prefix_commonPrefix_iff`), and its length `common`
  (`common_isGreatest`);
* `Spells`: what is written for one byte of a literal.

No block is entered on the way, so there need be no room for one.
-/

namespace LinearPattern

/-! ### Common prefixes -/

/-- What two byte strings have in common from their starts on. -/
def commonPrefix : Bytes → Bytes → Bytes
  | [], _ => []
  | _ :: _, [] => []
  | a :: s, b :: t => if a = b then a :: commonPrefix s t else []

/-- The common prefix is the longest one: the prefixes of it are those of both strings. -/
theorem prefix_commonPrefix_iff {u s t : Bytes} :
    u <+: commonPrefix s t ↔ u <+: s ∧ u <+: t := by
  fun_induction commonPrefix s t generalizing u with
  | case1 t => exact (and_iff_left_of_imp fun h => List.prefix_nil.mp h ▸ List.nil_prefix).symm
  | case2 a s => exact (and_iff_right_of_imp fun h => List.prefix_nil.mp h ▸ List.nil_prefix).symm
  | case3 s b t ih =>
    cases u with
    | nil => simp
    | cons x u =>
      rw [List.cons_prefix_cons, List.cons_prefix_cons, List.cons_prefix_cons, ih, and_and_left]
  | case4 a s b t hab =>
    cases u with
    | nil => simp
    | cons x u =>
      rw [List.prefix_nil, List.cons_prefix_cons, List.cons_prefix_cons]
      constructor
      · nofun
      · rintro ⟨⟨rfl, -⟩, rfl, -⟩
        exact absurd rfl hab

/-- How many bytes a literal and the data from a position on have in common. -/
def common (s : Bytes) (data : Array UInt8) (d : Nat) : Nat :=
  (commonPrefix s (data.toList.drop d)).length

/-- It is the greatest number of first bytes of the literal that the data goes on with. -/
theorem common_isGreatest (s : Bytes) (data : Array UInt8) (d : Nat) :
    (common s data d ≤ s.length ∧ s.take (common s data d) <+: data.toList.drop d) ∧
      ∀ n, n ≤ s.length → s.take n <+: data.toList.drop d → n ≤ common s data d := by
  constructor
  · obtain ⟨hs, hdata⟩ := prefix_commonPrefix_iff.mp
      (List.prefix_refl (commonPrefix s (data.toList.drop d)))
    refine ⟨hs.length_le, ?_⟩
    rwa [common, ← List.prefix_iff_eq_take.mp hs]
  · intro n hn hdata
    have hle := (prefix_commonPrefix_iff.mpr ⟨List.take_prefix n s, hdata⟩).length_le
    rwa [List.length_take_of_le hn] at hle

section

variable {s : Bytes} {data : Array UInt8} {b : UInt8} {d : Nat}

theorem common_cons_of_eq (hd : d < data.size) (h : data[d] = b) :
    common (b :: s) data d = common s data (d + 1) + 1 := by
  rw [common, drop_toList hd, commonPrefix, if_pos h.symm, List.length_cons, common]

theorem common_cons_of_ne (hd : d < data.size) (h : data[d] ≠ b) :
    common (b :: s) data d = 0 := by
  rw [common, drop_toList hd, commonPrefix, if_neg (Ne.symm h), List.length_nil]

theorem common_of_size_le (h : data.size ≤ d) : common s data d = 0 := by
  rw [common, List.drop_eq_nil_of_le (by simpa using h)]
  cases s <;> rfl

end

/-! ### The bytes of a literal -/

theorem literalPattern_cons (b : UInt8) (s : Bytes) :
    literalPattern (b :: s) = literalByte b ++ literalPattern s := List.flatMap_cons

theorem literalPattern_append (s t : Bytes) :
    literalPattern (s ++ t) = literalPattern s ++ literalPattern t := List.flatMap_append

/-- The item `x :: rest` accepts the byte `b` and no other, and the pattern goes on with `ps`. -/
structure Spells (b : UInt8) (ps : Bytes) (x : UInt8) (rest : Bytes) : Prop where
  op_eq : Op.ofByte x = .escape ∨ Op.ofByte x = .literal
  accepts_eq : ∀ c, accepts (Op.ofByte x) x rest c = (c == b)
  after_eq : afterElement x rest = ps

/-- A byte of a literal accepts itself only. -/
theorem literalByte_spells (b : UInt8) (ps : Bytes) :
    ∃ x rest, literalByte b ++ ps = x :: rest ∧ Spells b ps x rest := by
  unfold literalByte
  split
  · exact ⟨Byte.escape, b :: ps, rfl, .inl rfl, fun _ => rfl, rfl⟩
  · next hplain =>
    have hop := Op.ofByte_of_not_isOperator (Bool.not_eq_true _ ▸ hplain)
    refine ⟨b, ps, rfl, .inr hop, fun c => ?_, ?_⟩
    · simp only [hop, accepts]
    · simp only [afterElement, hop]

section

variable {hopAt : Bytes → Option Hop} {data : Array UInt8} {room : Nat} {start : Bool}
  {b x : UInt8} {ps rest : Bytes} {d : Nat}

theorem Spells.startsElement (h : Spells b ps x rest) : (Op.ofByte x).startsElement := by
  rcases h.op_eq with hop | hop <;> rw [hop] <;> rfl

/-- A match of a literal that is not empty needs data. -/
theorem Spells.needsData (h : Spells b ps x rest) :
    afterBoundary (x :: rest) = x :: rest ∧ needsData (x :: rest) := by
  have hx : x ≠ Byte.boundary := by
    rintro rfl
    exact absurd h.op_eq (by decide)
  constructor
  · rw [afterBoundary, if_neg (by simpa using hx)]
  · rcases h.op_eq with hop | hop <;> simp only [LinearPattern.needsData, hop]

/-- The element compares one byte, without a body. -/
theorem Spells.element_eq (h : Spells b ps x rest) (hd : d < data.size) (body : Nat → Outcome) :
    element data body x rest d =
      if data[d] = b then .reached ps (d + 1) else .failed (x :: rest) d := by
  have hg : Op.ofByte x ≠ .group := by rcases h.op_eq with hop | hop <;> rw [hop] <;> nofun
  have ho : Op.ofByte x ≠ .option := by rcases h.op_eq with hop | hop <;> rw [hop] <;> nofun
  rw [element_of_single hg ho, Array.getElem?_eq_getElem hd]
  simp only [h.accepts_eq, h.after_eq, beq_iff_eq]

/-- A byte of a literal that is not the byte of the data fails, at any room. -/
theorem Spells.block_of_ne (h : Spells b ps x rest) (hd : d < data.size) (hne : data[d] ≠ b) :
    block hopAt data room start (x :: rest) d none = .failed (x :: rest) d := by
  have helement := (h.element_eq hd (bodyAt hopAt data room x rest)).trans (if_neg hne)
  have hitem := item_eq_failed_iff.mpr helement
  rw [block_element h.startsElement hd (by simp), hitem]

/-- A byte of a literal that is the byte of the data is passed, at any room. -/
theorem Spells.block_of_eq (h : Spells b ps x rest) (hd : d < data.size) (heq : data[d] = b)
    (hps : ps.head? ≠ some Byte.plus) :
    block hopAt data room start (x :: rest) d none =
      block hopAt data room false ps (d + 1) none := by
  have hafter : afterItem x rest = ps := by
    rw [afterItem, h.after_eq, afterRun_of_head?_ne hps]
  have helement := (h.element_eq hd (bodyAt hopAt data room x rest)).trans (if_pos heq)
  have hitem : item data (bodyAt hopAt data room x rest) x rest d = .reached ps (d + 1) := by
    rw [item, helement]
    simp only [hps, if_false]
  rw [block_element h.startsElement hd (by simp), hitem]
  simp only [hafter]
  rfl

end

/-- No byte of a literal is taken for the `+` of the byte in front of it. -/
theorem head?_literalPattern_ne (s : Bytes) : (literalPattern s).head? ≠ some Byte.plus := by
  cases s with
  | nil => nofun
  | cons b s =>
    obtain ⟨x, rest, hx, hspells⟩ := literalByte_spells b (literalPattern s)
    rw [literalPattern_cons, hx, List.head?_cons]
    intro h
    obtain rfl := Option.some.inj h
    exact absurd hspells.op_eq (by decide)

/-- A literal splits the length of its pattern. -/
theorem length_literalPattern_drop (s : Bytes) (c : Nat) :
    (literalPattern s).length - (literalPattern (s.drop c)).length =
      (literalPattern (s.take c)).length := by
  have hsplit : literalPattern s = literalPattern (s.take c) ++ literalPattern (s.drop c) := by
    rw [← literalPattern_append, List.take_append_drop]
  rw [hsplit, List.length_append, Nat.add_sub_cancel]

/-! ### Whole literals -/

/-- The run of a literal stops behind what the literal and the data have in common: at the end of
one of them, or in front of the first byte that differs. -/
theorem block_literalPattern {hopAt : Bytes → Option Hop} {data : Array UInt8} {room : Nat}
    {start : Bool} {s : Bytes} {d : Nat} (hd : d ≤ data.size) :
    block hopAt data room start (literalPattern s) d none =
      if common s data d = s.length ∨ d + common s data d = data.size then
        .reached (literalPattern (s.drop (common s data d))) (d + common s data d)
      else .failed (literalPattern (s.drop (common s data d))) (d + common s data d) := by
  induction s generalizing d start with
  | nil => exact block_nil
  | cons b s ih =>
    obtain ⟨x, rest, hx, hspells⟩ := literalByte_spells b (literalPattern s)
    rw [← literalPattern_cons] at hx
    rcases Nat.lt_or_ge d data.size with hlt | hge
    · by_cases heq : data[d] = b
      · have hnext : d + 1 ≤ data.size := hlt
        have hpos : d + (common s data (d + 1) + 1) = d + 1 + common s data (d + 1) := by omega
        rw [hx, hspells.block_of_eq hlt heq (head?_literalPattern_ne s), ih hnext,
          common_cons_of_eq hlt heq]
        simp only [List.drop_succ_cons, List.length_cons, Nat.add_left_inj, hpos]
      · -- the run fails in front of this byte, which is not the last of the data
        rw [common_cons_of_ne hlt heq, List.drop_zero, hx, hspells.block_of_ne hlt heq, if_neg]
        · rfl
        · rintro (h | h)
          · cases h
          · omega
    · obtain ⟨hc, hb, -, -⟩ := Op.startsElement_eq_true.mp hspells.startsElement
      rw [common_of_size_le hge, List.drop_zero, if_pos (.inr (by omega)), hx,
        block_stop hc hb (.inl hge)]
      rfl

/-- The match of a literal fails at once at the end of the data, unless the literal is empty. -/
theorem run_literalPattern {hopAt : Bytes → Option Hop} {data : Array UInt8} {s : Bytes}
    {d nesting : Nat} :
    run hopAt { maxOps := none, nesting } (literalPattern s) data d =
      if d = data.size ∧ s ≠ [] then .failed (literalPattern s) d
      else block hopAt data nesting true (literalPattern s) d none := by
  cases s with
  | nil => simp [run, literalPattern, afterBoundary, needsData]
  | cons b s =>
    obtain ⟨x, rest, hx, hspells⟩ := literalByte_spells b (literalPattern s)
    rw [← literalPattern_cons] at hx
    obtain ⟨hboundary, hneeds⟩ := hspells.needsData
    simp [run, hx, hboundary, hneeds]

/-- **A literal is compared with the data byte for byte.**  It matches where the data holds all of
it, and where the data ends inside of it, unless that is at its first byte; otherwise the verdict
points at the first byte that differs, in the pattern and in the data. -/
theorem matchFrom_literalPattern (s : Bytes) (data : Array UInt8) (d nesting : Nat)
    (hd : d ≤ data.size) :
    matchFrom { maxOps := none, nesting } (literalPattern s) 0 data d =
      if common s data d = s.length then .matched (literalPattern s).length (d + s.length)
      else if d + common s data d = data.size ∧ d < data.size then
        .matched (literalPattern (s.take (common s data d))).length data.size
      else
        .mismatched (literalPattern (s.take (common s data d))).length
          (d + common s data d) := by
  rw [matchFrom, matchUsing, List.drop_zero, Nat.min_eq_left hd, run_literalPattern]
  by_cases hend : d = data.size ∧ s ≠ []
  · have hcommon : common s data d = 0 := common_of_size_le (Nat.le_of_eq hend.1.symm)
    have hall : common s data d ≠ s.length := by
      rw [hcommon]
      exact fun h => hend.2 (List.length_eq_zero_iff.mp h.symm)
    have hlive : ¬(d + common s data d = data.size ∧ d < data.size) := fun h =>
      absurd hend.1 (Nat.ne_of_lt h.2)
    rw [if_pos hend, if_neg hall, if_neg hlive, Outcome.verdict, Nat.sub_self, hcommon,
      List.take_zero]
    rfl
  · rw [if_neg hend, block_literalPattern hd]
    by_cases hall : common s data d = s.length
    · rw [if_pos (.inl hall), if_pos hall, Outcome.verdict, length_literalPattern_drop, hall,
        List.take_length]
    by_cases hsize : d + common s data d = data.size
    · have hlt : d < data.size := by
        refine Nat.lt_of_le_of_ne hd fun h => hend ⟨h, ?_⟩
        rintro rfl
        exact hall rfl
      rw [if_pos (.inr hsize), if_neg hall, if_pos ⟨hsize, hlt⟩, Outcome.verdict,
        length_literalPattern_drop, hsize]
    · rw [if_neg (not_or.mpr ⟨hall, hsize⟩), if_neg hall, if_neg (fun h => hsize h.1),
        Outcome.verdict, length_literalPattern_drop]

/-- The data ends inside of a literal of three operators, with no room for any block. -/
theorem matchFrom_literalPattern_cut :
    1 ≤ #[120, 43, 96].size ∧
      matchFrom { maxOps := none, nesting := 0 } (literalPattern [43, 96, 92]) 0 #[120, 43, 96] 1 =
        .matched 4 3 :=
  ⟨by decide, (matchFrom_literalPattern [43, 96, 92] #[120, 43, 96] 1 0 (by decide)).trans
    (by decide)⟩

end LinearPattern
