import LinearPattern.Match.Hop

/-!
# A hop finds the next place where its run fits

`Hop.next` looks at every `k`-th byte only, but what it finds is the first position at which the run
fits (`Hop.next_eq_firstFrom`).  The strides rest on two facts: a byte of the run always has its bit
in the mask (`Hop.hits_of_mem`), and where the run fits, every byte that it covers is a byte of the
run (`Hop.mem_of_fits`).

To fit means that the rest of the data and the run are the same as far as both reach
(`Hop.fits_iff_shown`), so the position is the least at which the data starts with the run or ends
inside of it (`Hop.next_isLeast`).
-/

namespace LinearPattern

/-! ### The first position that satisfies a test -/

section

variable {test : Nat → Bool} {size i j : Nat}

theorem firstFrom_of_le (h : size ≤ i) : firstFrom test size i = size := by
  rw [firstFrom, if_neg (Nat.not_lt.mpr h)]

theorem firstFrom_of_test (hi : i < size) (h : test i) : firstFrom test size i = i := by
  rw [firstFrom, if_pos hi, if_pos h]

theorem firstFrom_le (h : i ≤ size) : firstFrom test size i ≤ size := by
  fun_induction firstFrom test size i with
  | case1 i hi _ => exact h
  | case2 i hi _ ih => exact ih hi
  | case3 => exact Nat.le_refl _

theorem test_firstFrom (h : firstFrom test size i < size) : test (firstFrom test size i) := by
  fun_induction firstFrom test size i with
  | case1 i _ ht => exact ht
  | case2 i _ _ ih => exact ih h
  | case3 => exact absurd h (Nat.lt_irrefl _)

/-- No position before the first one satisfies the test. -/
theorem not_test_of_lt_firstFrom (hij : i ≤ j) (hj : j < firstFrom test size i) :
    test j = false := by
  fun_induction firstFrom test size i with
  | case1 => omega
  | case2 i hi ht ih =>
    rcases Nat.eq_or_lt_of_le hij with rfl | hlt
    · exact Bool.eq_false_iff.mpr ht
    · exact ih hlt hj
  | case3 i hi => omega

/-- Positions that do not satisfy the test may be passed over. -/
theorem firstFrom_skip {i j : Nat} (hij : i ≤ j) (hj : j ≤ size)
    (h : ∀ k, i ≤ k → k < j → test k = false) :
    firstFrom test size i = firstFrom test size j := by
  rcases Nat.eq_or_lt_of_le hij with rfl | hlt
  · rfl
  · rw [firstFrom, if_pos (Nat.lt_of_lt_of_le hlt hj), h i (Nat.le_refl i) hlt,
      if_neg Bool.false_ne_true]
    exact firstFrom_skip hlt hj fun k hk => h k (Nat.le_of_succ_le hk)
termination_by j - i

/-- The first position is found if all before it, and only those, are passed over. -/
theorem firstFrom_eq (hij : i ≤ j) (hj : j < size) (h : ∀ k, i ≤ k → k < j → test k = false)
    (ht : test j) : firstFrom test size i = j := by
  rw [firstFrom_skip hij (Nat.le_of_lt hj) h, firstFrom_of_test hj ht]

/-- Only the test of positions in the range matters. -/
theorem firstFrom_congr {test' : Nat → Bool} (h : ∀ k, k < size → test k = test' k) :
    firstFrom test size i = firstFrom test' size i := by
  fun_induction firstFrom test size i with
  | case1 i hi ht => rw [firstFrom_of_test hi (h i hi ▸ ht)]
  | case2 i hi ht ih =>
    rw [ih, firstFrom.eq_1 test' size i, if_pos hi, if_neg (h i hi ▸ ht)]
  | case3 i hi => rw [firstFrom_of_le (Nat.le_of_not_lt hi)]

/-- The position `j` is the least one from `i` on and in front of `size` that has the property, or
it is `size` where there is none. -/
inductive IsLeastFrom (p : Nat → Prop) (size i : Nat) : Nat → Prop
  | found {j : Nat} (hij : i ≤ j) (hj : j < size) (h : p j) (hbefore : ∀ k, i ≤ k → k < j → ¬p k) :
      IsLeastFrom p size i j
  | missing (h : ∀ k, i ≤ k → k < size → ¬p k) : IsLeastFrom p size i size

/-- The search finds the least position that satisfies the test. -/
theorem firstFrom_isLeastFrom (test : Nat → Bool) (size i : Nat) :
    IsLeastFrom (fun j => test j) size i (firstFrom test size i) := by
  have hbefore : ∀ k, i ≤ k → k < firstFrom test size i → ¬test k := by
    intro k hik hk
    rw [not_test_of_lt_firstFrom hik hk]
    exact Bool.false_ne_true
  rcases Nat.lt_or_ge (firstFrom test size i) size with hlt | hge
  · have hi : i ≤ size := by
      refine Nat.le_of_not_lt fun hi => ?_
      rw [firstFrom_of_le (Nat.le_of_lt hi)] at hlt
      exact Nat.lt_irrefl _ hlt
    exact .found (le_firstFrom _ hi) hlt (test_firstFrom hlt) hbefore
  · have hsize : firstFrom test size i = size := by
      rcases Nat.le_total i size with hi | hi
      · exact Nat.le_antisymm (firstFrom_le hi) hge
      · exact firstFrom_of_le hi
    rw [hsize] at hbefore ⊢
    exact .missing hbefore

end

/-! ### Masks -/

theorem mask_or_and (x y z : UInt64) : (x ||| y) &&& z = (x &&& z) ||| (y &&& z) := by
  apply UInt64.toBitVec_inj.mp
  simp only [UInt64.toBitVec_or, UInt64.toBitVec_and]
  ext k hk
  simp [Bool.and_or_distrib_right]

theorem Byte.bit_ne_zero (b : UInt8) : Byte.bit b ≠ 0 := by
  have hs : Byte.slot b < 64 := Nat.mod_lt _ (by decide)
  have hpow : 2 ^ Byte.slot b < 2 ^ 64 := Nat.pow_lt_pow_right (by decide) hs
  have hval : (Byte.bit b).toNat = 2 ^ Byte.slot b := by
    rw [Byte.bit, UInt64.toNat_shiftLeft,
      UInt64.toNat_ofNat_of_lt' (Nat.lt_trans hs (by decide)), Nat.mod_eq_of_lt hs,
      UInt64.toNat_one, Nat.shiftLeft_eq, Nat.one_mul, Nat.mod_eq_of_lt hpow]
  intro h
  rw [h] at hval
  exact absurd hval.symm (Nat.ne_of_gt (Nat.two_pow_pos _))

/-- A mask keeps its bits while more bytes are put into it, and gets those of the bytes. -/
theorem foldl_mask_and_bit {run : Bytes} {mask : UInt64} {b : UInt8}
    (h : mask &&& Byte.bit b ≠ 0 ∨ b ∈ run) :
    run.foldl (fun mask x => mask ||| Byte.bit x) mask &&& Byte.bit b ≠ 0 := by
  induction run generalizing mask with
  | nil => simpa using h
  | cons x run ih =>
    rw [List.foldl_cons]
    apply ih
    rw [mask_or_and, ne_eq, UInt64.or_eq_zero_iff, Classical.not_and_iff_not_or_not]
    rcases h with h | h
    · exact .inl (.inl h)
    · rcases List.mem_cons.mp h with rfl | h
      · exact .inl (.inr (by rw [UInt64.and_self]; exact Byte.bit_ne_zero b))
      · exact .inr h

theorem maskOf_and_bit {run : Bytes} {b : UInt8} (h : b ∈ run) : maskOf run &&& Byte.bit b ≠ 0 :=
  foldl_mask_and_bit (.inr h)

/-! ### Hops -/

theorem drop_toList {data : Array UInt8} {i : Nat} (h : i < data.size) :
    data.toList.drop i = data[i] :: data.toList.drop (i + 1) := by
  rw [List.drop_eq_getElem_cons (by simpa using h), Array.getElem_toList]

namespace Hop

variable {data : Array UInt8} {i j : Nat}

theorem run_of_of?_eq_some {hop : Hop} {ps : Bytes} (h : of? ps = some hop) :
    hop.run = leadingRun ps := by
  unfold of? at h
  split at h
  · cases h
  · next hrun =>
    obtain rfl := Option.some.inj h
    exact hrun.symm

theorem hits_of_mem (hop : Hop) {b : UInt8} (h : b ∈ hop.run) : hop.hits b := by
  rw [hits, hop.mask_eq, bne_iff_ne]
  exact maskOf_and_bit h

/-- The run fits where the data and the run are the same as far as both reach. -/
theorem agrees_eq (data : Array UInt8) (run : Bytes) (i : Nat) :
    agrees data run i =
      ((data.toList.drop i).take run.length == run.take (data.size - i)) := by
  induction run generalizing i with
  | nil => rw [agrees, List.length_nil, List.take_zero, List.take_nil, beq_self_eq_true]
  | cons b run ih =>
    rw [agrees]
    by_cases hi : i < data.size
    · rw [Array.getElem?_eq_getElem hi]
      simp only
      rw [ih, drop_toList hi, List.length_cons, List.take_succ_cons,
        show data.size - i = data.size - (i + 1) + 1 by omega, List.take_succ_cons,
        List.cons_beq_cons]
    · rw [Array.getElem?_eq_none (Nat.le_of_not_lt hi), List.drop_eq_nil_of_le (by simpa using hi),
        Nat.sub_eq_zero_of_le (Nat.le_of_not_lt hi), List.take_zero, List.take_nil,
        beq_self_eq_true]

/-- Where the data agrees with a run, it holds the bytes of the run as far as it reaches. -/
theorem mem_of_agrees {run : Bytes} {c : UInt8} (h : agrees data run i) (hij : i ≤ j)
    (hj : j < i + run.length) (hc : data[j]? = some c) : c ∈ run := by
  induction run generalizing i with
  | nil => simp at hj; omega
  | cons b run ih =>
    rw [agrees] at h
    rcases Nat.eq_or_lt_of_le hij with rfl | hlt
    · rw [hc, Bool.and_eq_true, beq_iff_eq] at h
      exact h.1 ▸ List.mem_cons_self
    · have hi : i < data.size := Nat.lt_trans hlt (Array.getElem?_eq_some_iff.mp hc).1
      rw [Array.getElem?_eq_getElem hi, Bool.and_eq_true] at h
      rw [List.length_cons] at hj
      exact List.mem_cons_of_mem b (ih h.2 hlt (by omega))

theorem mem_of_fits (hop : Hop) {c : UInt8} (h : hop.fits data i) (hij : i ≤ j)
    (hj : j < i + hop.length) (hc : data[j]? = some c) : c ∈ hop.run :=
  mem_of_agrees h hij hj hc

/-- A byte that is not in the mask rules out all places whose run covers it. -/
theorem not_fits_of_not_hits (hop : Hop) (hj : j < data.size) (h : ¬hop.hits (data.getD j 0))
    (hij : i ≤ j) (hji : j < i + hop.length) : hop.fits data i = false := by
  rw [← Bool.not_eq_true]
  intro hfits
  refine h (hop.hits_of_mem (hop.mem_of_fits hfits hij hji ?_))
  rw [Array.getD_eq_getD_getElem?, Array.getElem?_eq_getElem hj, Option.getD_some]

theorem seek_eq_firstFrom (hop : Hop) (data : Array UInt8) (i : Nat) :
    hop.seek data i = firstFrom (hop.fits data) data.size i := by
  have hpos := hop.length_pos
  fun_induction hop.seek data i with
  -- the byte that is looked at may be one of a run: all places of a run that covers it are tried
  | case1 i hi probe hhit last found hfound =>
    have hlt : found < last + 1 := Nat.lt_succ_of_le hfound
    symm
    exact firstFrom_eq (le_firstFrom _ (by omega)) (by omega)
      (fun k hik hk => not_test_of_lt_firstFrom hik hk) (test_firstFrom hlt)
  | case2 i hi probe hhit last found hfound ih =>
    rw [ih]
    symm
    exact firstFrom_skip (by omega) (by omega)
      fun k hik hk => not_test_of_lt_firstFrom hik (Nat.lt_of_lt_of_le hk (Nat.lt_of_not_le hfound))
  -- it is in no run: none of the places of a run that covers it fits
  | case3 i hi probe hhit ih =>
    rw [ih]
    symm
    exact firstFrom_skip (by omega) hi
      fun k hik hk => hop.not_fits_of_not_hits (by omega) hhit (by omega) (by omega)
  | case4 => rfl

/-- What a hop finds is the first position at which its run fits. -/
theorem next_eq_firstFrom (hop : Hop) (data : Array UInt8) (i : Nat) :
    hop.next data i = firstFrom (hop.fits data) data.size i := by
  unfold next
  split
  · next h => rw [firstFrom_of_le h]
  · split
    · next b hrun =>
      refine firstFrom_congr fun k hk => ?_
      rw [fits, hrun, agrees, Array.getElem?_eq_getElem hk]
      simp [agrees]
    · exact hop.seek_eq_firstFrom data i

/-! ### The least candidate -/

/-- The rest of the data starts with the run, or it is a proper beginning of it. -/
def Shown (run rest : Bytes) : Prop := run <+: rest ∨ (rest <+: run ∧ rest ≠ run)

/-- Two byte strings are the same as far as both reach if one of them starts with the other. -/
theorem take_eq_take_iff (xs ys : Bytes) :
    xs.take ys.length = ys.take xs.length ↔ ys <+: xs ∨ xs <+: ys := by
  constructor
  · intro h
    rcases Nat.le_total ys.length xs.length with hle | hle
    · rw [List.take_of_length_le (l := ys) hle] at h
      exact .inl (List.prefix_iff_eq_take.mpr h.symm)
    · rw [List.take_of_length_le (l := xs) hle] at h
      exact .inr (List.prefix_iff_eq_take.mpr h)
  · rintro (h | h)
    · rw [← List.prefix_iff_eq_take.mp h, List.take_of_length_le h.length_le]
    · rw [← List.prefix_iff_eq_take.mp h, List.take_of_length_le h.length_le]

theorem fits_iff_shown (hop : Hop) (data : Array UInt8) (s : Nat) :
    hop.fits data s ↔ Shown hop.run (data.toList.drop s) := by
  have hlength : data.size - s = (data.toList.drop s).length := by simp
  rw [fits, agrees_eq, hlength, beq_iff_eq, take_eq_take_iff, Shown]
  constructor
  · rintro (h | h)
    · exact .inl h
    · by_cases heq : data.toList.drop s = hop.run
      · exact .inl (heq ▸ List.prefix_refl _)
      · exact .inr ⟨h, heq⟩
  · exact Or.imp_right And.left

/-- **A hop goes to the first candidate.**  For the hop of an element it finds the least position
from `i` on at which the data starts with the run or ends inside of it, and the end of the data if
there is no such position. -/
theorem next_isLeast {pattern : Bytes} {p : Nat} {hop : Hop}
    (h : of? (pattern.drop p) = some hop) (data : Array UInt8) (i : Nat) :
    (hop.run = leadingRun (pattern.drop p) ∧ 1 ≤ hop.run.length) ∧
      IsLeastFrom (fun s => Shown hop.run (data.toList.drop s)) data.size i (hop.next data i) := by
  refine ⟨⟨run_of_of?_eq_some h, hop.length_pos⟩, ?_⟩
  have hshown : (fun s => Shown hop.run (data.toList.drop s)) = fun s => hop.fits data s = true :=
    funext fun s => propext (hop.fits_iff_shown data s).symm
  rw [hshown, next_eq_firstFrom]
  exact firstFrom_isLeastFrom _ _ _

/-- The hop for the group of `a~((Huck)+b)` in `hucKHuchHu`, from position 1 on: four bytes with the
bits of the run are no candidate, nor is the beginning of the run in the middle of the data; the one
at its end is. -/
theorem next_isLeast_cut :
    let pattern : Bytes := [97, 126, 40, 40, 72, 117, 99, 107, 41, 43, 98, 41]
    let data : Array UInt8 := #[104, 117, 99, 75, 72, 117, 99, 104, 72, 117]
    ∃ hop, of? (pattern.drop 2) = some hop ∧ hop.run = [72, 117, 99, 107] ∧
      IsLeastFrom (fun s => Shown hop.run (data.toList.drop s)) data.size 1 8 := by
  intro pattern data
  let hop : Hop := { run := [72, 117, 99, 107], run_ne_nil := List.cons_ne_nil _ _ }
  have h : of? (pattern.drop 2) = some hop := rfl
  have hnext : hop.next data 1 = 8 := by decide +kernel
  obtain ⟨⟨hrun, -⟩, hleast⟩ := next_isLeast h data 1
  rw [hnext] at hleast
  exact ⟨hop, h, hrun, hleast⟩

end Hop

end LinearPattern
