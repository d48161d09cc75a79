import LinearPattern.Proofs.Alike
import LinearPattern.Proofs.Fence
import LinearPattern.Proofs.PlainScan
import LinearPattern.Proofs.Token

/-!
# Runs of one operator

Several `+` one behind the other do what one of them does, and so do several `~`, wherever in a
pattern the run of them starts: behind an element or a block, where it repeats, at the start of a
block, where a `+` does nothing, or behind a `~`, where it is what the scan looks for.

* `Longer`: two patterns that differ in the length of one such run.

Whatever reads on in two such patterns leaves two such patterns (`longer_afterBlock`,
`longer_afterRun`, `longer_afterElement`), until the run has been read and what is left is the same.
So the patterns do alike (`longer_alike`), by induction on the longer one.
-/

namespace LinearPattern

/-- The first place is the second one with a run of the byte `x` made longer, by `k` bytes, or it is
the same place.  In front of the run are whole tokens. -/
inductive Longer (x : UInt8) (k : Nat) : Bytes → Bytes → Prop
  | same (ps : Bytes) : Longer x k ps ps
  | run (behind : Bytes) : Longer x k (x :: (List.replicate k x ++ behind)) (x :: behind)
  | escape (y : UInt8) {ps qs : Bytes} (h : Longer x k ps qs) :
      Longer x k (Byte.escape :: y :: ps) (Byte.escape :: y :: qs)
  | set {members ps qs : Bytes} (hm : ByteSet.Closed members) (h : Longer x k ps qs) :
      Longer x k (Byte.setOpen :: (members ++ Byte.setClose :: ps))
        (Byte.setOpen :: (members ++ Byte.setClose :: qs))
  | single {b : UInt8} {ps qs : Bytes} (he : Op.ofByte b ≠ .escape) (hs : Op.ofByte b ≠ .set)
      (h : Longer x k ps qs) : Longer x k (b :: ps) (b :: qs)

section

variable {x : UInt8} {k : Nat} {ps qs : Bytes} {b : UInt8} {rest rest' : Bytes}

theorem Longer.head?_eq (h : Longer x k ps qs) : ps.head? = qs.head? := by
  cases h <;> rfl

theorem Longer.atBlockEnd_eq (h : Longer x k ps qs) : atBlockEnd ps = atBlockEnd qs := by
  cases h <;> rfl

theorem Longer.exists_cons (h : Longer x k (b :: rest) qs) :
    ∃ rest', qs = b :: rest' := by
  cases h <;> exact ⟨_, rfl⟩

/-- Behind an operator that is not that of the run, the run is still to be read. -/
theorem Longer.tail (he : Op.ofByte b ≠ .escape) (hs : Op.ofByte b ≠ .set) (hb : b ≠ x)
    (h : Longer x k (b :: rest) (b :: rest')) : Longer x k rest rest' := by
  cases h with
  | same => exact .same _
  | run => exact absurd rfl hb
  | escape => exact absurd rfl he
  | set => exact absurd rfl hs
  | single _ _ h => exact h

/-- What is in front of the start of a token can be put in front of both places. -/
theorem exists_front_of_tokenStart (h : TokenStart ps qs) (hne : qs ≠ []) :
    ∃ front, ps = front ++ qs ∧ ∀ ps' qs', Longer x k ps' qs' →
      Longer x k (front ++ ps') (front ++ qs') := by
  induction h with
  | here => exact ⟨[], rfl, fun _ _ hl => hl⟩
  | @behind b rest qs h ih =>
    obtain ⟨front, hfront, hlonger⟩ := ih hne
    have hnext : nextPlace b rest ≠ [] := by simp [hfront, hne]
    by_cases he : Op.ofByte b = .escape
    · obtain rfl := Op.ofByte_eq_escape he
      cases rest with
      | nil => exact absurd rfl hnext
      | cons y rest =>
        have hrest : rest = front ++ qs := hfront
        exact ⟨Byte.escape :: y :: front, by rw [hrest]; rfl,
          fun ps' qs' hl => .escape y (hlonger ps' qs' hl)⟩
    by_cases hs : Op.ofByte b = .set
    · obtain rfl := Op.ofByte_eq_set hs
      obtain ⟨members, hmembers, hclosed⟩ :=
        ByteSet.exists_closed_of_afterSet? (afterSet?_of_ne_nil hnext)
      have hrest : afterSet rest = front ++ qs := hfront
      refine ⟨Byte.setOpen :: (members ++ Byte.setClose :: front), ?_, fun ps' qs' hl => ?_⟩
      · rw [hmembers, hrest]
        simp
      · have hlong := Longer.set hclosed (hlonger ps' qs' hl)
        simpa using hlong
    · rw [nextPlace_of_ne rest he hs] at hfront
      exact ⟨b :: front, by rw [hfront]; rfl, fun ps' qs' hl => .single he hs (hlonger ps' qs' hl)⟩

/-! ### Reading on -/

/-- The block that both places are in ends behind the run, or the run is behind its close. -/
theorem longer_afterBlock (hx : Op.ofByte x = .plus ∨ Op.ofByte x = .scan) (h : Longer x k ps qs)
    (n : Nat) : Longer x k (afterBlock n ps) (afterBlock n qs) := by
  induction h generalizing n with
  | same => exact .same _
  | run behind =>
    have hop : Op.ofByte x = .boundary ∨ Op.ofByte x = .plus ∨ Op.ofByte x = .scan := .inr hx
    rw [afterBlock_single n _ hop, afterBlock_single n _ hop, afterBlock_afterRun n hop,
      afterRun_replicate, ← afterBlock_afterRun n hop]
    exact .same _
  | escape y _ ih =>
    rw [afterBlock_escape n rfl, afterBlock_escape n rfl]
    exact ih n
  | set hm _ ih =>
    rw [afterBlock_set n rfl, afterBlock_set n rfl, hm.afterSet_eq, hm.afterSet_eq]
    exact ih n
  | @single b ps qs he hs h ih =>
    by_cases hblock : Op.ofByte b = .group ∨ Op.ofByte b = .option
    · rw [afterBlock_enter n hblock, afterBlock_enter n hblock]
      exact ih (n + 1)
    obtain ⟨hg, ho⟩ := not_or.mp hblock
    by_cases hc : Op.ofByte b = .close
    · cases n with
      | zero =>
        rw [afterBlock_close hc, afterBlock_close hc]
        exact h
      | succ n =>
        rw [afterBlock_close_succ n hc, afterBlock_close_succ n hc]
        exact ih n
    · rw [afterBlock_plain n he hs hg ho hc, afterBlock_plain n he hs hg ho hc]
      exact ih n

/-- A run of `+` or of `~` is passed over in both. -/
theorem longer_afterRun {y : UInt8} (hy : Op.ofByte y = .plus ∨ Op.ofByte y = .scan)
    (h : Longer x k ps qs) : Longer x k (afterRun y ps) (afterRun y qs) := by
  induction h with
  | same => exact .same _
  | run behind =>
    by_cases hxy : x = y
    · subst hxy
      rw [afterRun_cons_self, afterRun_cons_self, afterRun_replicate]
      exact .same _
    · rw [afterRun_of_head?_ne (by simpa using hxy), afterRun_of_head?_ne (by simpa using hxy)]
      exact .run behind
  | escape z h ih =>
    have hne : Byte.escape ≠ y := by
      rintro rfl
      rcases hy with hy | hy <;> cases hy
    rw [afterRun_of_head?_ne (by simpa using hne), afterRun_of_head?_ne (by simpa using hne)]
    exact .escape z h
  | set hm h ih =>
    have hne : Byte.setOpen ≠ y := by
      rintro rfl
      rcases hy with hy | hy <;> cases hy
    rw [afterRun_of_head?_ne (by simpa using hne), afterRun_of_head?_ne (by simpa using hne)]
    exact .set hm h
  | @single b ps qs he hs h ih =>
    by_cases hb : b = y
    · subst hb
      rw [afterRun_cons_self, afterRun_cons_self]
      exact ih
    · rw [afterRun_of_head?_ne (by simpa using hb), afterRun_of_head?_ne (by simpa using hb)]
      exact .single he hs h

/-- Neither `+` nor `~` starts an element. -/
theorem not_startsElement_of_run (hx : Op.ofByte x = .plus ∨ Op.ofByte x = .scan) :
    ¬(Op.ofByte x).startsElement := by
  rcases hx with hx | hx <;> simp [hx, Op.startsElement]

theorem longer_afterElement (hx : Op.ofByte x = .plus ∨ Op.ofByte x = .scan)
    (hop : (Op.ofByte b).startsElement) (h : Longer x k (b :: rest) (b :: rest')) :
    Longer x k (afterElement b rest) (afterElement b rest') := by
  cases h with
  | same => exact .same _
  | run => exact absurd hop (not_startsElement_of_run hx)
  | escape y h => exact h
  | @set members ps qs hm h =>
    show Longer x k (afterSet (members ++ Byte.setClose :: ps))
      (afterSet (members ++ Byte.setClose :: qs))
    rw [hm.afterSet_eq, hm.afterSet_eq]
    exact h
  | single he hs h =>
    unfold afterElement
    split
    · next hop => exact absurd hop he
    · next hop => exact absurd hop hs
    · exact longer_afterBlock hx h 0
    · exact longer_afterBlock hx h 0
    · exact h

theorem longer_accepts (hx : Op.ofByte x = .plus ∨ Op.ofByte x = .scan)
    (hop : (Op.ofByte b).startsElement) (h : Longer x k (b :: rest) (b :: rest')) (c : UInt8) :
    accepts (Op.ofByte b) b rest c = accepts (Op.ofByte b) b rest' c := by
  cases h with
  | same => rfl
  | run => exact absurd hop (not_startsElement_of_run hx)
  | escape y h => rfl
  | set hm h => exact (ByteSet.contains_append hm c _).trans (ByteSet.contains_append hm c _).symm
  | single he hs h =>
    unfold accepts
    split
    all_goals first | rfl | contradiction

/-! ### Runs -/

variable {data : Array UInt8}

/-- A run of `+` with no element in front of it does what one `+` does. -/
theorem alike_run_of_plus (hx : Op.ofByte x = .plus) (k : Nat) (behind : Bytes) :
    Alike data (x :: (List.replicate k x ++ behind)) (x :: behind) := by
  induction k with
  | zero => exact .refl _
  | succ k ih => exact (Alike.plus_plus hx).trans ih

/-- Places that differ in the length of a run do alike. -/
theorem longer_alike (hx : Op.ofByte x = .plus ∨ Op.ofByte x = .scan) (h : Longer x k ps qs) :
    Alike data ps qs := by
  induction hn : ps.length using Nat.strongRecOn generalizing ps qs with
  | _ n ih =>
    have hne : ∀ {b}, Op.ofByte b ≠ .plus → Op.ofByte b ≠ .scan → b ≠ x := by
      rintro b hp hs rfl
      exact hx.elim hp hs
    cases ps with
    | nil =>
      cases h
      exact .refl _
    | cons b rest =>
      obtain ⟨rest', rfl⟩ := h.exists_cons
      have hbehind : ∀ {ps' qs' : Bytes}, ps' <:+ rest → Longer x k ps' qs' →
          Alike data ps' qs' := fun hsuffix hl =>
        ih _ (by rw [← hn]; exact Nat.lt_succ_of_le hsuffix.length_le) hl rfl
      by_cases hc : Op.ofByte b = .close
      · exact .close hc
      by_cases hb : Op.ofByte b = .boundary
      · have htail := h.tail (by simp [hb]) (by simp [hb]) (hne (by simp [hb]) (by simp [hb]))
        exact .boundary hb (hbehind (List.suffix_refl _) htail)
      by_cases hp : Op.ofByte b = .plus
      · cases h with
        | same => exact .refl _
        | run => exact alike_run_of_plus hp k _
        | escape => cases hp
        | set => cases hp
        | single _ _ h => exact .plus hp (hbehind (List.suffix_refl _) h)
      by_cases hs : Op.ofByte b = .scan
      · obtain rfl := Op.ofByte_eq_scan hs
        have htarget := longer_afterRun (.inr rfl : Op.ofByte Byte.scan = .plus ∨ _) h
        rw [afterRun_cons_self, afterRun_cons_self] at htarget
        exact .scan hs htarget.atBlockEnd_eq (hbehind (afterRun_suffix _ _) htarget)
      have hop := Op.startsElement_eq_true.mpr ⟨hc, hb, hp, hs⟩
      have helement := longer_afterElement hx hop h
      refine .element hop (longer_accepts hx hop h) (fun hblock => ?_) helement.head?_eq ?_
      · obtain ⟨he, hset⟩ := Op.ne_of_opens hblock
        exact hbehind (List.suffix_refl _) (h.tail he hset (hne hp hs))
      · exact hbehind (afterItem_suffix b rest) (longer_afterRun (.inl rfl) helement)

/-! ### Whole matches -/

theorem longer_afterBoundary (hx : Op.ofByte x = .plus ∨ Op.ofByte x = .scan)
    (h : Longer x k ps qs) : Longer x k (afterBoundary ps) (afterBoundary qs) := by
  cases ps with
  | nil =>
    cases h
    exact .same _
  | cons b rest =>
    obtain ⟨rest', rfl⟩ := h.exists_cons
    rw [afterBoundary, afterBoundary]
    split
    · next hb =>
      obtain rfl := beq_iff_eq.mp hb
      refine h.tail (by decide) (by decide) ?_
      rintro rfl
      rcases hx with hx | hx <;> cases hx
    · exact h

theorem longer_needsData (h : Longer x k ps qs) : needsData ps = needsData qs := by
  cases ps with
  | nil =>
    cases h
    rfl
  | cons b rest =>
    obtain ⟨rest', rfl⟩ := h.exists_cons
    rw [needsData, needsData]
    cases hop : Op.ofByte b with
    | scan =>
      obtain rfl := Op.ofByte_eq_scan hop
      have htarget := longer_afterRun (.inr rfl : Op.ofByte Byte.scan = .plus ∨ _) h
      rw [afterRun_cons_self, afterRun_cons_self] at htarget
      simp only [htarget.atBlockEnd_eq]
    | _ => rfl

/-- Whole runs do alike. -/
theorem run_bare_of_longer (hx : Op.ofByte x = .plus ∨ Op.ofByte x = .scan)
    (h : Longer x k ps qs) (nesting : Nat) (d : Nat) :
    (run (fun _ => none) ⟨none, nesting⟩ ps data d).bare =
      (run (fun _ => none) ⟨none, nesting⟩ qs data d).bare := by
  have hfirst := longer_afterBoundary hx h
  rw [run, run, longer_needsData hfirst]
  split
  · rfl
  · exact (longer_alike hx h).unlimited nesting true d

end

/-- **Runs of `+` and of `~` act as one.**  Where a token starts, so many `+`, or so many `~`, may
stand for one: a match without a budget comes to the same in the data. -/
theorem matchFrom_longer_run {x : UInt8} (hx : x = Byte.plus ∨ x = Byte.scan)
    {front behind : Bytes} (htoken : TokenStart (front ++ [x] ++ behind) ([x] ++ behind)) {k : Nat}
    (hk : 1 ≤ k) (nesting : Nat) (data : Array UInt8) (d : Nat) :
    (matchFrom { maxOps := none, nesting } (front ++ List.replicate k x ++ behind) 0 data
        d).dataNumber =
      (matchFrom { maxOps := none, nesting } (front ++ [x] ++ behind) 0 data d).dataNumber := by
  have hop : Op.ofByte x = .plus ∨ Op.ofByte x = .scan := by
    rcases hx with rfl | rfl
    · exact .inl rfl
    · exact .inr rfl
  obtain ⟨more, rfl⟩ := Nat.exists_eq_add_of_le' hk
  obtain ⟨front', hfront, hlonger⟩ := exists_front_of_tokenStart htoken (by simp)
  rw [List.append_assoc, List.append_cancel_right_eq] at hfront
  subst hfront
  have hlong : Longer x more (front ++ List.replicate (more + 1) x ++ behind)
      (front ++ [x] ++ behind) := by
    rw [List.append_assoc, List.append_assoc]
    exact hlonger _ _ (.run behind)
  rw [matchFrom, matchFrom, matchUsing, matchUsing, run_plain, run_plain, List.drop_zero,
    List.drop_zero]
  exact Outcome.dataNumber_eq_of_bare (run_bare_of_longer hop hlong nesting _) _ _

/-- `({+}\~)+++~b` on `+~+~xb`: the byte in the set is no token, and the group is repeated once for
all three `+`. -/
theorem matchFrom_longer_run_group :
    let front : Bytes := [40, 123, 43, 125, 92, 126, 41]
    let behind : Bytes := [126, 98]
    let data : Array UInt8 := #[43, 126, 43, 126, 120, 98]
    TokenStart (front ++ [43] ++ behind) ([43] ++ behind) ∧
      (matchFrom { maxOps := none, nesting := 1 } (front ++ List.replicate 3 43 ++ behind) 0 data
        0).dataNumber = 6 := by
  intro front behind data
  have htoken : TokenStart (front ++ [43] ++ behind) ([43] ++ behind) :=
    .behind (.behind (.behind (.behind .here)))
  refine ⟨htoken, ?_⟩
  rw [matchFrom_longer_run (.inl rfl) htoken (by decide)]
  decide +kernel

end LinearPattern
