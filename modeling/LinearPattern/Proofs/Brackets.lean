import LinearPattern.Proofs.Fence
import LinearPattern.Proofs.FirstFault

/-!
# Which close ends which block

The check of a pattern keeps the places of the open blocks on a stack.  A run passes over a block
with nothing but a count of the blocks that are open inside of it, from the middle of the pattern.
Both find the same close for every block.

* `BlockEvent`, `bracketing`: the check, together with the blocks that it opens and closes
  (`bracketing_result`);
* `Standing`: what the stack says about the rest of the pattern;
* `blockEnd_of_bracketing`: the close that the check pairs with an open is the end of the block.

The invariant is that the block which is the `k`th on the stack ends where the count `k` says: at
the end of the block that is `k` blocks further out.  Every token keeps it (`Standing.pass`,
`Standing.enter`, `Standing.leave`).
-/

namespace LinearPattern

/-! ### The check with what it opens and closes -/

/-- What a check does to its stack. -/
inductive BlockEvent
  /-- The block that opens at position `i` is put on the stack. -/
  | opened (i : Nat)
  /-- The block that opens at position `i` is taken off the stack by the close at position `j`. -/
  | closed (i j : Nat)
  deriving DecidableEq

/-- What a check comes to, and what it does to its stack on the way. -/
structure Bracketing where
  result : Except Fault Unit
  events : List BlockEvent

/-- The same check with one event in front. -/
def Bracketing.after (event : BlockEvent) (t : Bracketing) : Bracketing :=
  ⟨t.result, event :: t.events⟩

/-- The check of the rest of a pattern of length `total`, with what it does to its stack.  A block
is put on the stack before the limit is looked at, and taken off it before its close is looked
at. -/
def bracketing (limit : Nat) (strict : Bool) (total : Nat) (opened : List Bytes) (ps : Bytes) :
    Bracketing :=
  match ps with
  | [] =>
    match opened with
    | [] => ⟨.ok (), []⟩
    | opening :: _ =>
      ⟨if strict then .error (.unclosedBlock (total - opening.length)) else .ok (), []⟩
  | b :: rest =>
    let pos := total - (b :: rest).length
    match Op.ofByte b with
    | .escape => bracketing limit strict total opened (rest.drop 1)
    | .set =>
      match afterSet? rest with
      | none => ⟨if strict then .error (.unclosedSet pos) else .ok (), []⟩
      | some _ => bracketing limit strict total opened (afterSet rest)
    | .close =>
      match opened with
      | [] =>
        if strict then ⟨.error (.unmatchedClose pos), []⟩
        else bracketing limit strict total [] rest
      | opening :: outer =>
        let event := .closed (total - opening.length) pos
        if strict && !closes opening b then ⟨.error (.mismatchedClose pos), [event]⟩
        else .after event (bracketing limit strict total outer rest)
    | op =>
      if op = .group ∨ op = .option then
        if limit ≤ opened.length then
          ⟨.error (.nestingOver (opened.length + 1) limit), [.opened pos]⟩
        else .after (.opened pos) (bracketing limit strict total ((b :: rest) :: opened) rest)
      else bracketing limit strict total opened rest
termination_by ps.length
decreasing_by
  all_goals
    have := (afterSet_suffix rest).length_le
    simp only [List.length_cons, List.length_drop]
    omega

/-- The result is that of the check. -/
theorem bracketing_result (limit : Nat) (strict : Bool) (total : Nat) (opened : List Bytes)
    (ps : Bytes) :
    (bracketing limit strict total opened ps).result = walk limit strict total opened ps := by
  fun_induction bracketing limit strict total opened ps with
  | case1 => rw [walk.eq_def]
  | case2 => rw [walk.eq_def]
  | case3 opened b rest hop ih => rw [ih, walk_escape hop]
  | case4 opened b rest pos hop hs =>
    rw [walk.eq_def]
    simp only [hop, hs, pos]
  | case5 opened b rest hop behind hs ih => rw [ih, afterSet_of_some hs, walk_set hop hs]
  | case6 b rest pos hop hstrict =>
    rw [walk.eq_def]
    simp only [hop, hstrict, if_true, pos]
  | case7 b rest hop hstrict ih => rw [ih, walk_stray hop (Bool.eq_false_iff.mpr hstrict)]
  | case8 b rest pos hop opening outer event hc =>
    rw [walk.eq_def]
    simp only [hop, hc, if_true, pos]
  | case9 b rest pos hop opening outer event hc ih =>
    rw [walk_closes hop (Bool.eq_false_iff.mpr hc)]
    exact ih
  | case10 opened b rest pos hfull _ _ _ hop => rw [walk_open hop, if_pos hfull]
  | case11 opened b rest pos hroom _ _ _ hop ih =>
    rw [walk_open hop, if_neg hroom]
    exact ih
  | case12 opened b rest he hs hc hop ih =>
    obtain ⟨hg, ho⟩ := not_or.mp hop
    rw [ih, walk_plain he hs hg ho hc]

/-! ### The stack -/

/-- The open of a group or an option and the close of the same kind are at these positions. -/
def Paired (pattern : Bytes) (i j : Nat) : Prop :=
  ∃ opening closing, pattern[i]? = some opening ∧ pattern[j]? = some closing ∧
    Byte.Brackets opening closing

/-- The check comes to a place of the pattern with these blocks open, the innermost first. -/
structure Standing (limit : Nat) (pattern : Bytes) (opened : List Bytes) (ps : Bytes) : Prop where
  place : ps <:+ pattern
  /-- Every open block opens at a place of the pattern. -/
  opens : ∀ opening ∈ opened, opening <:+ pattern ∧
    ∃ b body, opening = b :: body ∧ (Op.ofByte b = .group ∨ Op.ofByte b = .option)
  /-- The block with `k` open blocks inside of it ends where that many blocks more are left. -/
  ends : ∀ k opening, opened[k]? = some opening → afterBlock 0 opening.tail = afterBlock k ps
  /-- A strict check that accepts the pattern accepts it from here on. -/
  accepted : check limit true pattern = .ok () →
    walk limit true pattern.length opened ps = .ok ()

namespace Standing

variable {limit : Nat} {pattern ps : Bytes} {opened outer : List Bytes} {opening rest : Bytes}
  {b : UInt8} {k : Nat}

theorem start (limit : Nat) (pattern : Bytes) : Standing limit pattern [] pattern where
  place := List.suffix_refl pattern
  opens := nofun
  ends := nofun
  accepted := id

/-- A token that opens and closes nothing is passed over. -/
theorem pass (h : Standing limit pattern opened ps) {qs : Bytes} (hsuffix : qs <:+ ps)
    (hends : ∀ k, afterBlock k ps = afterBlock k qs)
    (hwalk : walk limit true pattern.length opened ps = .ok () →
      walk limit true pattern.length opened qs = .ok ()) :
    Standing limit pattern opened qs where
  place := hsuffix.trans h.place
  opens := h.opens
  ends k opening hk := (h.ends k opening hk).trans (hends k)
  accepted hcheck := hwalk (h.accepted hcheck)

theorem escape (h : Standing limit pattern opened (b :: rest)) (hop : Op.ofByte b = .escape) :
    Standing limit pattern opened (rest.drop 1) :=
  h.pass ((List.drop_suffix 1 rest).trans (List.suffix_cons b rest))
    (fun k => afterBlock_escape k hop) fun hw => walk_escape hop ▸ hw

theorem set (h : Standing limit pattern opened (b :: rest)) (hop : Op.ofByte b = .set) :
    Standing limit pattern opened (afterSet rest) :=
  h.pass ((afterSet_suffix rest).trans (List.suffix_cons b rest))
    (fun k => afterBlock_set k hop) (walk_afterSet hop)

theorem plain (h : Standing limit pattern opened (b :: rest)) (he : Op.ofByte b ≠ .escape)
    (hs : Op.ofByte b ≠ .set) (hc : Op.ofByte b ≠ .close)
    (hop : ¬(Op.ofByte b = .group ∨ Op.ofByte b = .option)) :
    Standing limit pattern opened rest := by
  obtain ⟨hg, ho⟩ := not_or.mp hop
  exact h.pass (List.suffix_cons b rest) (fun k => afterBlock_plain k he hs hg ho hc)
    fun hw => walk_plain he hs hg ho hc ▸ hw

/-- A block that opens is put on the stack. -/
theorem enter (h : Standing limit pattern opened (b :: rest))
    (hop : Op.ofByte b = .group ∨ Op.ofByte b = .option) :
    Standing limit pattern ((b :: rest) :: opened) rest where
  place := (List.suffix_cons b rest).trans h.place
  opens opening hmem := by
    rcases List.mem_cons.mp hmem with rfl | hmem
    · exact ⟨h.place, b, rest, rfl, hop⟩
    · exact h.opens opening hmem
  ends k opening hk := by
    cases k with
    | zero =>
      obtain rfl := Option.some.inj hk
      rfl
    | succ k => rw [h.ends k opening hk, afterBlock_enter k hop]
  accepted hcheck := (walk_inside hop (h.accepted hcheck)).2

/-- A close takes the innermost block off the stack. -/
theorem leave (h : Standing limit pattern (opening :: outer) (b :: rest))
    (hop : Op.ofByte b = .close) : Standing limit pattern outer rest where
  place := (List.suffix_cons b rest).trans h.place
  opens opening' hmem := h.opens opening' (List.mem_cons_of_mem opening hmem)
  ends k opening' hk := by rw [h.ends (k + 1) opening' hk, afterBlock_close_succ k hop]
  accepted hcheck := walk_close hop (h.accepted hcheck)

/-- A close with nothing open changes nothing; a strict check does not accept it. -/
theorem stray (h : Standing limit pattern [] (b :: rest)) (hop : Op.ofByte b = .close) :
    Standing limit pattern [] rest where
  place := (List.suffix_cons b rest).trans h.place
  opens := nofun
  ends := nofun
  accepted hcheck := absurd hop (not_close_of_walk (h.accepted hcheck))

/-- Where an open block ends. -/
theorem blockEnd_eq (h : Standing limit pattern opened ps) (hk : opened[k]? = some opening) :
    blockEnd pattern (pattern.length - opening.length + 1) =
      pattern.length - (afterBlock k ps).length := by
  obtain ⟨hsuffix, b, body, rfl, -⟩ := h.opens opening (List.mem_of_getElem? hk)
  rw [blockEnd, ← List.drop_drop, ← List.suffix_iff_eq_drop.mp hsuffix, ← h.ends k _ hk,
    List.drop_one]

/-- The close that takes a block off the stack is the one that ends it, and in a pattern that a
strict check accepts it is the close of the same kind. -/
theorem closed (h : Standing limit pattern (opening :: outer) (b :: rest))
    (hop : Op.ofByte b = .close) :
    blockEnd pattern (pattern.length - opening.length + 1) =
        pattern.length - (b :: rest).length + 1 ∧
      (check limit true pattern = .ok () → Paired pattern (pattern.length - opening.length)
        (pattern.length - (b :: rest).length)) := by
  constructor
  · have hlength := h.place.length_le
    rw [h.blockEnd_eq (k := 0) rfl, afterBlock_close hop]
    rw [List.length_cons] at hlength ⊢
    omega
  · intro hcheck
    obtain ⟨hsuffix, x, body, rfl, hopens⟩ := h.opens opening List.mem_cons_self
    have hcloses := closes_of_walk hop (h.accepted hcheck)
    refine ⟨x, b, ?_, ?_, (Byte.closes_iff_brackets hopens).mp hcloses⟩
    · rw [← List.head?_drop, ← List.suffix_iff_eq_drop.mp hsuffix, List.head?_cons]
    · rw [← List.head?_drop, ← List.suffix_iff_eq_drop.mp h.place, List.head?_cons]

end Standing

/-! ### Whole checks -/

section

variable {bound limit : Nat} {strict : Bool} {pattern ps : Bytes} {opened : List Bytes} {i j : Nat}

/-- Where the check closes a block, the block ends. -/
theorem Standing.of_closed_mem (h : Standing bound pattern opened ps)
    (hmem : .closed i j ∈ (bracketing limit strict pattern.length opened ps).events) :
    blockEnd pattern (i + 1) = j + 1 ∧
      (check bound true pattern = .ok () → Paired pattern i j) := by
  fun_induction bracketing limit strict pattern.length opened ps with
  | case1 => cases hmem
  | case2 => cases hmem
  | case3 opened b rest hop ih => exact ih (h.escape hop) hmem
  | case4 => cases hmem
  | case5 opened b rest hop behind hs ih => exact ih (h.set hop) hmem
  | case6 => cases hmem
  | case7 b rest hop hstrict ih => exact ih (h.stray hop) hmem
  | case8 b rest pos hop opening outer event hc =>
    obtain ⟨rfl, rfl⟩ := BlockEvent.closed.inj (List.mem_singleton.mp hmem)
    exact h.closed hop
  | case9 b rest pos hop opening outer event hc ih =>
    rcases List.mem_cons.mp hmem with heq | hmem
    · obtain ⟨rfl, rfl⟩ := BlockEvent.closed.inj heq
      exact h.closed hop
    · exact ih (h.leave hop) hmem
  | case10 => cases List.mem_singleton.mp hmem
  | case11 opened b rest pos hroom _ _ _ hop ih =>
    rcases List.mem_cons.mp hmem with heq | hmem
    · cases heq
    · exact ih (h.enter hop) hmem
  | case12 opened b rest he hs hc hop ih => exact ih (h.plain he hs hc hop) hmem

/-- The block that opens at this position is open or is going to be opened. -/
def Awaited (total : Nat) (opened : List Bytes) (events : List BlockEvent) (i : Nat) : Prop :=
  .opened i ∈ events ∨ ∃ opening ∈ opened, total - opening.length = i

/-- The innermost block is awaited no more once it is closed. -/
theorem Awaited.outer {total : Nat} {opening : Bytes} {outer : List Bytes} {i' j' : Nat}
    {events : List BlockEvent} (h : Awaited total (opening :: outer) (.closed i' j' :: events) i)
    (hi : total - opening.length ≠ i) : Awaited total outer events i := by
  rcases h with hmem | ⟨opening', hmem, hpos⟩
  · rcases List.mem_cons.mp hmem with heq | hmem
    · cases heq
    · exact .inl hmem
  · rcases List.mem_cons.mp hmem with rfl | hmem
    · exact absurd hpos hi
    · exact .inr ⟨opening', hmem, hpos⟩

/-- A block that is opened stays awaited. -/
theorem Awaited.inner {total : Nat} {opening : Bytes} {events : List BlockEvent}
    (h : Awaited total opened (.opened (total - opening.length) :: events) i) :
    Awaited total (opening :: opened) events i := by
  rcases h with hmem | ⟨opening', hmem, hpos⟩
  · rcases List.mem_cons.mp hmem with heq | hmem
    · obtain rfl := BlockEvent.opened.inj heq
      exact .inr ⟨opening, List.mem_cons_self, rfl⟩
    · exact .inl hmem
  · exact .inr ⟨opening', List.mem_cons_of_mem _ hmem, hpos⟩

/-- Where no block of the stack ends any more, all of them go on to the end of the pattern. -/
theorem Standing.left (h : Standing bound pattern opened ps) (hend : ∀ k, afterBlock k ps = [])
    (hi : Awaited pattern.length opened [] i) : blockEnd pattern (i + 1) = pattern.length := by
  rcases hi with hmem | ⟨opening, hmem, rfl⟩
  · cases hmem
  · obtain ⟨k, hk⟩ := List.mem_iff_getElem?.mp hmem
    rw [h.blockEnd_eq hk, hend, List.length_nil, Nat.sub_zero]

/-- A block that an accepting check never closes goes on to the end of the pattern, and a strict
check does not accept the pattern. -/
theorem Standing.closed_or_left (h : Standing bound pattern opened ps)
    (hok : (bracketing limit strict pattern.length opened ps).result = .ok ())
    (hi : Awaited pattern.length opened
      (bracketing limit strict pattern.length opened ps).events i) :
    (∃ j, .closed i j ∈ (bracketing limit strict pattern.length opened ps).events) ∨
      (blockEnd pattern (i + 1) = pattern.length ∧ check bound true pattern ≠ .ok ()) := by
  fun_induction bracketing limit strict pattern.length opened ps with
  | case1 =>
    rcases hi with hmem | ⟨opening, hmem, -⟩
    · cases hmem
    · cases hmem
  | case2 opening outer =>
    refine .inr ⟨h.left (fun k => by rw [afterBlock]) hi, fun hcheck => ?_⟩
    cases walk_nil_eq_ok.mp (h.accepted hcheck) with
    | inl hstrict => cases hstrict
    | inr hnil => cases hnil
  | case3 opened b rest hop ih => exact ih (h.escape hop) hok hi
  | case4 opened b rest pos hop hs =>
    -- the rest of the pattern is the body of a set that is not closed
    have hend (k : Nat) : afterBlock k (b :: rest) = [] := by
      rw [afterBlock_set k hop, afterSet, hs, Option.getD_none, afterBlock]
    refine .inr ⟨h.left hend hi, fun hcheck => ?_⟩
    obtain ⟨behind, hset⟩ := closedSet_of_walk hop (h.accepted hcheck)
    rw [hs] at hset
    cases hset
  | case5 opened b rest hop behind hs ih => exact ih (h.set hop) hok hi
  | case6 => cases hok
  | case7 b rest hop hstrict ih => exact ih (h.stray hop) hok hi
  | case8 => cases hok
  | case9 b rest pos hop opening outer event hc ih =>
    by_cases hpos : pattern.length - opening.length = i
    · subst hpos
      exact .inl ⟨pos, List.mem_cons_self⟩
    · exact (ih (h.leave hop) hok (hi.outer hpos)).imp_left
        (Exists.imp fun _ => List.mem_cons_of_mem event)
  | case10 => cases hok
  | case11 opened b rest pos hroom _ _ _ hop ih =>
    exact (ih (h.enter hop) hok hi.inner).imp_left (Exists.imp fun _ => List.mem_cons_of_mem _)
  | case12 opened b rest he hs hc hop ih => exact ih (h.plain he hs hc hop) hok hi

/-- A limit of as many blocks as the pattern has bytes is no limit. -/
theorem check_of_length_le (h : pattern.length ≤ limit) : check limit false pattern = .ok () := by
  have hmost : mostOpen ([] : List Bytes).length pattern ≤ limit :=
    Nat.le_trans mostOpen_le (by simpa using h)
  rw [check, walk_lenient_eq (Nat.zero_le limit), if_pos hmost]

/-- **The check pairs the opens and closes that end the blocks.**  Take a lenient check that no
limit stops, as it is with any limit that the pattern is not longer than.  The block that it opens
at a position ends behind the close that the check closes it with; if the check never closes it, it
goes on to the end of the pattern.  In a pattern that a strict check accepts, every block that opens
is closed, and by the close of its own kind. -/
theorem blockEnd_of_bracketing (limit : Nat) (pattern : Bytes) :
    let events := (bracketing limit false pattern.length [] pattern).events
    (bracketing limit false pattern.length [] pattern).result = check limit false pattern ∧
      (pattern.length ≤ limit → check limit false pattern = .ok ()) ∧
      (check limit false pattern = .ok () → ∀ i, .opened i ∈ events →
        (∀ j, .closed i j ∈ events → blockEnd pattern (i + 1) = j + 1) ∧
        ((∀ j, .closed i j ∉ events) → blockEnd pattern (i + 1) = pattern.length) ∧
        ∀ bound, check bound true pattern = .ok () →
          (∃ j, .closed i j ∈ events) ∧ ∀ j, .closed i j ∈ events → Paired pattern i j) := by
  intro events
  have hresult := bracketing_result limit false pattern.length [] pattern
  refine ⟨hresult, check_of_length_le, fun h i hi =>
    ⟨fun j hj => ?_, fun hnone => ?_, fun bound hcheck => ⟨?_, ?_⟩⟩⟩
  · exact ((Standing.start limit pattern).of_closed_mem hj).1
  · rcases (Standing.start limit pattern).closed_or_left (hresult.trans h) (.inl hi) with hj | hleft
    · obtain ⟨j, hj⟩ := hj
      exact absurd hj (hnone j)
    · exact hleft.1
  · rcases (Standing.start bound pattern).closed_or_left (hresult.trans h) (.inl hi) with hj | hleft
    · exact hj
    · exact absurd hcheck hleft.2
  · intro j hj
    exact ((Standing.start bound pattern).of_closed_mem hj).2 hcheck

/-- In `([{)}})x(\)` a brace closes the option, the parenthesis in the set closes nothing, and the
last group is never closed, since its parenthesis is escaped.  A strict check accepts
`(a[{)}])`. -/
theorem blockEnd_of_bracketing_mixed :
    let pattern : Bytes := [40, 91, 123, 41, 125, 125, 41, 120, 40, 92, 41]
    let nested : Bytes := [40, 97, 91, 123, 41, 125, 93, 41]
    (check 11 false pattern = .ok () ∧
        (bracketing 11 false pattern.length [] pattern).events =
          [.opened 0, .opened 1, .closed 1 5, .closed 0 6, .opened 8] ∧
        blockEnd pattern 2 = 6 ∧ blockEnd pattern 1 = 7 ∧ blockEnd pattern 9 = 11) ∧
      check 8 false nested = .ok () ∧ check 2 true nested = .ok () ∧
        (bracketing 8 false nested.length [] nested).events =
          [.opened 0, .opened 2, .closed 2 6, .closed 0 7] ∧
        Paired nested 2 6 ∧ Paired nested 0 7 := by
  intro pattern nested
  have hmixed : check 11 false pattern = .ok () := check_of_length_le (Nat.le_refl 11)
  have hnested : check 8 false nested = .ok () := check_of_length_le (Nat.le_refl 8)
  have hstrict : check 2 true nested = .ok () := by decide +kernel
  have hevents : (bracketing 11 false pattern.length [] pattern).events =
      [.opened 0, .opened 1, .closed 1 5, .closed 0 6, .opened 8] := by decide +kernel
  have hevents' : (bracketing 8 false nested.length [] nested).events =
      [.opened 0, .opened 2, .closed 2 6, .closed 0 7] := by decide +kernel
  have hends := (blockEnd_of_bracketing 11 pattern).2.2 hmixed
  have hpairs := (blockEnd_of_bracketing 8 nested).2.2 hnested
  simp only [hevents] at hends
  simp only [hevents'] at hpairs
  refine ⟨⟨hmixed, hevents, ?_, ?_, ?_⟩, hnested, hstrict, hevents', ?_, ?_⟩
  · exact (hends 1 (by decide)).1 5 (by decide)
  · exact (hends 0 (by decide)).1 6 (by decide)
  · exact (hends 8 (by decide)).2.1 (by simp)
  · exact ((hpairs 2 (by decide)).2.2 2 hstrict).2 6 (by decide)
  · exact ((hpairs 0 (by decide)).2.2 2 hstrict).2 7 (by decide)

end

end LinearPattern
